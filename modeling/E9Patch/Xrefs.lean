import E9Patch.GraphEdges

/-!
The search for references to an address (`e9studio_find_xrefs_to`). The loop over the functions does not advance at
one without a graph, every instruction whose target field has the address is taken, and an instruction that stands
in two graphs is taken twice.
-/

namespace E9Patch

/-! ### The search -/

/-- The loop over the instructions of a block. -/
def xrefsInBlock (addr : Nat) (max_results : Int) : List Insn → List Nat → List Nat
  | [], results => results
  | insn :: insns, results =>
    if (results.length : Int) < max_results then
      xrefsInBlock addr max_results insns (if insn.target = addr then results ++ [insn.address] else results)
    else results

/-- The loop over the blocks of a graph. -/
def xrefsInGraph (addr : Nat) (max_results : Int) : List E9BasicBlock → List Nat → List Nat
  | [], results => results
  | block :: blocks, results =>
    if (results.length : Int) < max_results then
      xrefsInGraph addr max_results blocks (xrefsInBlock addr max_results block.insns results)
    else results

/-- The loop over the functions; at one without a graph it goes on with the same function. -/
def xrefsInFunctions (addr : Nat) (max_results : Int) : Nat → List E9Function → List Nat → Option (List Nat)
  | 0, _, _ => none
  | _ + 1, [], results => some results
  | fuel + 1, func :: functions, results =>
    if (results.length : Int) < max_results then
      match func.cfg with
      | none => xrefsInFunctions addr max_results fuel (func :: functions) results
      | some cfg => xrefsInFunctions addr max_results fuel functions (xrefsInGraph addr max_results cfg.blocks results)
    else some results

/-- The addresses that are stored, or `none` if the fuel is used up. -/
def e9studio_find_xrefs_to (fuel : Nat) (functions : List E9Function) (addr : Nat) (max_results : Int) :
    Option (List Nat) :=
  if max_results ≤ 0 then some [] else xrefsInFunctions addr max_results fuel functions []

/-! ### What is to be found -/

/-- The instructions of all graphs, in order. -/
def graphInsns (functions : List E9Function) : List Insn :=
  functions.flatMap fun func => func.cfg.elim [] fun cfg => cfg.blocks.flatMap (·.insns)

/-- The instructions whose target field has the address. -/
def pointing (functions : List E9Function) (addr : Nat) : List Insn :=
  (graphInsns functions).filter fun insn => insn.target = addr

/-- A direct call or jump. -/
def Insn.isTransfer (insn : Insn) : Bool :=
  (insn.category = .CALL || insn.category = .JUMP || insn.category = .COND_JUMP) && !insn.target_is_indirect

/-- The search ends, with the first addresses of the calls and jumps to `addr`, each once. -/
def FindsXrefs (functions : List E9Function) (addr : Nat) (max_results : Int) : Prop :=
  ∃ fuel, e9studio_find_xrefs_to fuel functions addr max_results =
    some ((((graphInsns functions).filter fun insn => insn.isTransfer && insn.target = addr).map (·.address)).eraseDups.take
      max_results.toNat)

/-- The graphs are those of the binary: an instruction in them is what its address decodes to. -/
def GraphsOf (d : Reader.Block) (bin : E9Binary) (functions : List E9Function) : Prop :=
  ∀ insn ∈ graphInsns functions, disassembled d bin insn.address = some insn

/-- When a search for up to `n` references is right: a function without a graph is not come to, and the first `n`
instructions that point to the address are calls and jumps with distinct addresses. -/
structure Searchable (functions : List E9Function) (addr n : Nat) : Prop where
  graphs : ∀ {before after : List E9Function} {func : E9Function}, functions = before ++ func :: after →
    func.cfg = none → n ≤ (pointing before addr).length
  transfers : ∀ insn ∈ (pointing functions addr).take n, insn.isTransfer = true
  distinct : (((pointing functions addr).take n).map (·.address)).Nodup

/-! ### The loops -/

/-- What a loop takes up to `n` is the same if a part was taken before. -/
theorem take_append_take {α : Type} (n : Nat) (xs ys : List α) : (xs.take n ++ ys).take n = (xs ++ ys).take n := by
  rw [List.take_append, List.take_append, List.take_take, Nat.min_self, List.length_take]
  by_cases h : xs.length ≤ n
  · rw [Nat.min_eq_right h]
  · have hzero : n - xs.length = 0 := by omega
    rw [hzero, Nat.min_eq_left (by omega), Nat.sub_self]

section
variable {addr n : Nat}

theorem xrefsInBlock_eq (insns : List Insn) {results : List Nat} (hlen : results.length ≤ n) :
    xrefsInBlock addr n insns results =
      (results ++ (insns.filter fun insn => insn.target = addr).map (·.address)).take n := by
  induction insns generalizing results with
  | nil =>
      rw [List.filter_nil, List.map_nil, List.append_nil, List.take_of_length_le hlen]
      rfl
  | cons insn insns ih =>
      unfold xrefsInBlock
      by_cases hmore : (results.length : Int) < n
      · rw [if_pos hmore]
        by_cases htarget : insn.target = addr
        · have hstep : (results ++ [insn.address]).length ≤ n := by
            rw [List.length_append, List.length_singleton]
            omega
          rw [if_pos htarget, ih hstep]
          simp [htarget]
        · rw [if_neg htarget, ih hlen, List.filter_cons_of_neg (by simpa using htarget)]
      · have hfull : results.length = n := by omega
        rw [if_neg hmore, ← hfull, List.take_left]

theorem xrefsInGraph_eq (blocks : List E9BasicBlock) {results : List Nat} (hlen : results.length ≤ n) :
    xrefsInGraph addr n blocks results =
      (results ++ ((blocks.flatMap (·.insns)).filter fun insn => insn.target = addr).map (·.address)).take n := by
  induction blocks generalizing results with
  | nil =>
      rw [List.flatMap_nil, List.filter_nil, List.map_nil, List.append_nil, List.take_of_length_le hlen]
      rfl
  | cons block blocks ih =>
      unfold xrefsInGraph
      by_cases hmore : (results.length : Int) < n
      · rw [if_pos hmore, xrefsInBlock_eq block.insns hlen, ih (List.length_take_le _ _), take_append_take,
          List.flatMap_cons, List.filter_append, List.map_append, List.append_assoc]
      · have hfull : results.length = n := by omega
        rw [if_neg hmore, ← hfull, List.take_left]

theorem pointing_cons (func : E9Function) (functions : List E9Function) :
    pointing (func :: functions) addr = pointing [func] addr ++ pointing functions addr := by
  unfold pointing graphInsns
  rw [← List.filter_append]
  simp

/-- A function with a graph. -/
theorem xrefsInGraph_pointing {func : E9Function} {cfg : E9CFG} (hcfg : func.cfg = some cfg) {results : List Nat}
    (hlen : results.length ≤ n) :
    xrefsInGraph addr n cfg.blocks results = (results ++ (pointing [func] addr).map (·.address)).take n := by
  have hinsns : graphInsns [func] = cfg.blocks.flatMap (·.insns) := by
    unfold graphInsns
    simp [hcfg]
  rw [xrefsInGraph_eq cfg.blocks hlen, pointing, hinsns]

/-- The loop ends if no function without a graph is come to before the results are full. -/
theorem xrefsInFunctions_ends {fuel : Nat} {functions : List E9Function} {results : List Nat}
    (hfuel : functions.length < fuel) (hlen : results.length ≤ n)
    (hgraphs : ∀ {before after : List E9Function} {func : E9Function}, functions = before ++ func :: after →
      func.cfg = none → n ≤ results.length + (pointing before addr).length) :
    xrefsInFunctions addr n fuel functions results =
      some ((results ++ (pointing functions addr).map (·.address)).take n) := by
  induction functions generalizing fuel results with
  | nil =>
      obtain ⟨fuel, rfl⟩ : ∃ k, fuel = k + 1 := ⟨fuel - 1, by omega⟩
      have hnone : pointing [] addr = [] := rfl
      rw [hnone, List.map_nil, List.append_nil, List.take_of_length_le hlen]
      rfl
  | cons func functions ih =>
      obtain ⟨fuel, rfl⟩ : ∃ k, fuel = k + 1 := ⟨fuel - 1, by omega⟩
      unfold xrefsInFunctions
      by_cases hmore : (results.length : Int) < n
      · rw [if_pos hmore]
        cases hcfg : func.cfg with
        | none =>
            have hfull := hgraphs (List.nil_append _).symm hcfg
            have hnone : (pointing [] addr).length = 0 := rfl
            omega
        | some cfg =>
            have hrest : ∀ {before after : List E9Function} {other : E9Function}, functions = before ++ other :: after →
                other.cfg = none → n ≤ ((results ++ (pointing [func] addr).map (·.address)).take n).length +
                  (pointing before addr).length := by
              intro before after other heq hother
              have hbefore := @hgraphs (func :: before) after other (by rw [heq, List.cons_append]) hother
              rw [pointing_cons, List.length_append] at hbefore
              rw [List.length_take, List.length_append, List.length_map]
              omega
            dsimp only
            rw [xrefsInGraph_pointing hcfg hlen, ih (by simpa using hfuel) (List.length_take_le _ _) hrest, take_append_take,
              pointing_cons func functions, List.map_append, List.append_assoc]
      · have hfull : results.length = n := by omega
        rw [if_neg hmore, ← hfull, List.take_left]

/-- More fuel gives the same. -/
theorem xrefsInFunctions_mono {fuel more : Nat} (hle : fuel ≤ more) {functions : List E9Function} {results r : List Nat}
    (h : xrefsInFunctions addr n fuel functions results = some r) :
    xrefsInFunctions addr n more functions results = some r := by
  induction fuel generalizing more functions results with
  | zero => cases h
  | succ fuel ih =>
      obtain ⟨more, rfl⟩ : ∃ k, more = k + 1 := ⟨more - 1, by omega⟩
      cases functions with
      | nil => exact h
      | cons func functions =>
          unfold xrefsInFunctions at h ⊢
          split
          · rename_i hmore
            rw [if_pos hmore] at h
            cases hcfg : func.cfg with
            | none =>
                rw [hcfg] at h
                exact ih (by omega) h
            | some cfg =>
                rw [hcfg] at h
                exact ih (by omega) h
          · rename_i hfull
            rwa [if_neg hfull] at h

/-- It does not end if one is come to. -/
theorem xrefsInFunctions_diverges {fuel : Nat} {before after : List E9Function} {func : E9Function} {results : List Nat}
    (hcfg : func.cfg = none) (hlen : results.length + (pointing before addr).length < n) :
    xrefsInFunctions addr n fuel (before ++ func :: after) results = none := by
  induction fuel generalizing before results with
  | zero => rfl
  | succ fuel ih =>
      cases before with
      | nil =>
          rw [List.nil_append, xrefsInFunctions, if_pos (by omega), hcfg]
          exact @ih [] results hlen
      | cons first before =>
          rw [List.cons_append, xrefsInFunctions, if_pos (by omega)]
          cases hfirst : first.cfg with
          | none => exact @ih (first :: before) results hlen
          | some cfg =>
              dsimp only
              rw [xrefsInGraph_pointing hfirst (by omega)]
              refine ih ?_
              rw [pointing_cons, List.length_append] at hlen
              rw [List.length_take, List.length_append, List.length_map]
              omega

end

/-! ### Distinct references -/

theorem eraseDups_of_nodup {xs : List Nat} (h : xs.Nodup) : xs.eraseDups = xs := by
  induction xs with
  | nil => rfl
  | cons x xs ih =>
      obtain ⟨hx, hxs⟩ := List.nodup_cons.mp h
      have hall : (xs.filter fun y => !y == x) = xs := List.filter_eq_self.mpr fun y hy => by
        have hne : y ≠ x := fun heq => hx (heq ▸ hy)
        simpa using hne
      rw [List.eraseDups_cons, hall, ih hxs]

theorem nodup_eraseDups (xs : List Nat) : xs.eraseDups.Nodup := by
  induction hlen : xs.length using Nat.strongRecOn generalizing xs with
  | ind k ih =>
      cases xs with
      | nil => exact List.Pairwise.nil
      | cons x xs =>
          rw [List.eraseDups_cons]
          have hless : (xs.filter fun y => !y == x).length < k := by
            have hle := List.length_filter_le (fun y => !y == x) xs
            rw [List.length_cons] at hlen
            omega
          refine List.nodup_cons.mpr ⟨fun hmem => ?_, ih _ hless _ rfl⟩
          simpa using (List.mem_filter.mp (List.mem_eraseDups.mp hmem)).2

section
variable {d : Reader.Block} {bin : E9Binary} {functions : List E9Function} {addr : Nat}

theorem mem_pointing {insn : Insn} : insn ∈ pointing functions addr ↔ insn ∈ graphInsns functions ∧ insn.target = addr := by
  unfold pointing
  rw [List.mem_filter, decide_eq_true_eq]

/-- The calls and jumps to the address are among what points to it. -/
theorem transfers_eq : (graphInsns functions).filter (fun insn => insn.isTransfer && insn.target = addr) =
    (pointing functions addr).filter (·.isTransfer) := by
  unfold pointing
  rw [List.filter_filter]

/-- The first `n` are the first of the calls and jumps exactly if they are calls and jumps and distinct. -/
theorem take_transfers_iff (hgraphs : GraphsOf d bin functions) (n : Nat) :
    ((pointing functions addr).map (·.address)).take n =
      (((pointing functions addr).filter (·.isTransfer)).map (·.address)).eraseDups.take n ↔
    (∀ insn ∈ (pointing functions addr).take n, insn.isTransfer = true) ∧
      (((pointing functions addr).take n).map (·.address)).Nodup := by
  constructor
  · intro heq
    rw [← List.map_take] at heq
    refine ⟨fun insn hinsn => ?_, ?_⟩
    · have hmem : insn.address ∈ ((pointing functions addr).take n).map (·.address) := List.mem_map_of_mem hinsn
      rw [heq] at hmem
      obtain ⟨other, hother, haddress⟩ := List.mem_map.mp (List.mem_eraseDups.mp (List.mem_of_mem_take hmem))
      obtain ⟨hpoint, htransfer⟩ := List.mem_filter.mp hother
      have hone := hgraphs insn (mem_pointing.mp (List.mem_of_mem_take hinsn)).1
      have htwo := hgraphs other (mem_pointing.mp hpoint).1
      rw [haddress, hone] at htwo
      rw [Option.some.inj htwo]
      exact htransfer
    · rw [heq]
      exact (nodup_eraseDups _).sublist (List.take_sublist _ _)
  · rintro ⟨htransfers, hnodup⟩
    have hsplit : (pointing functions addr).filter (·.isTransfer) =
        (pointing functions addr).take n ++ ((pointing functions addr).drop n).filter (·.isTransfer) := by
      conv_lhs => rw [← List.take_append_drop n (pointing functions addr)]
      rw [List.filter_append, List.filter_eq_self.mpr htransfers]
    rw [hsplit, List.map_append, List.eraseDups_append, eraseDups_of_nodup hnodup, ← List.map_take]
    by_cases hlen : n ≤ (pointing functions addr).length
    · have htake : n ≤ (((pointing functions addr).take n).map (·.address)).length := by
        rw [List.length_map, List.length_take]
        omega
      rw [List.take_append_of_le_length htake, List.map_take, List.take_take, Nat.min_self]
    · rw [List.drop_eq_nil_of_le (by omega)]
      simp [List.take_take]

/-- The search ends with the first addresses of the calls and jumps, each once, if and only if no function without a
graph is come to, and the first instructions that point to the address are calls and jumps at distinct addresses. -/
theorem find_xrefs_iff (hgraphs : GraphsOf d bin functions) (max_results : Int) :
    FindsXrefs functions addr max_results ↔ Searchable functions addr max_results.toNat := by
  unfold FindsXrefs e9studio_find_xrefs_to
  rw [transfers_eq]
  by_cases hmax : max_results ≤ 0
  · have hzero : max_results.toNat = 0 := by omega
    rw [hzero]
    refine ⟨fun _ => ⟨fun _ _ => Nat.zero_le _, nofun, List.Pairwise.nil⟩, fun _ => ⟨0, ?_⟩⟩
    rw [if_pos hmax, List.take_zero]
  · obtain ⟨n, rfl⟩ : ∃ n : Nat, max_results = n := ⟨max_results.toNat, by omega⟩
    rw [Int.toNat_natCast]
    simp only [if_neg hmax]
    by_cases hreach : ∀ {before after : List E9Function} {func : E9Function}, functions = before ++ func :: after →
        func.cfg = none → n ≤ (pointing before addr).length
    · have hends : ∀ {fuel : Nat}, functions.length < fuel → xrefsInFunctions addr n fuel functions [] =
          some (((pointing functions addr).map (·.address)).take n) := fun hfuel =>
        xrefsInFunctions_ends hfuel (Nat.zero_le n) fun heq hcfg => by
          rw [List.length_nil, Nat.zero_add]
          exact hreach heq hcfg
      constructor
      · rintro ⟨fuel, hfind⟩
        have hmono := xrefsInFunctions_mono (Nat.le_max_left fuel (functions.length + 1)) hfind
        rw [hends (Nat.lt_of_succ_le (Nat.le_max_right _ _))] at hmono
        obtain ⟨htransfers, hdistinct⟩ := (take_transfers_iff hgraphs n).mp (Option.some.inj hmono)
        exact ⟨hreach, htransfers, hdistinct⟩
      · intro h
        refine ⟨functions.length + 1, ?_⟩
        rw [hends (Nat.lt_succ_self _), (take_transfers_iff hgraphs n).mpr ⟨h.transfers, h.distinct⟩]
    · constructor
      · rintro ⟨fuel, hfind⟩
        refine (hreach fun {before after func} heq hcfg => ?_).elim
        by_contra hfew
        rw [heq, xrefsInFunctions_diverges hcfg (by rw [List.length_nil]; omega)] at hfind
        cases hfind
      · exact fun h => (hreach fun heq hcfg => h.graphs heq hcfg).elim

/-- Behind address 0 nothing but a call or a jump points to an address. -/
theorem pointing_transfers (hgraphs : GraphsOf d bin functions) (haddr : addr ≠ 0) :
    ∀ insn ∈ pointing functions addr, insn.isTransfer = true := by
  intro insn hinsn
  obtain ⟨hgraph, htarget⟩ := mem_pointing.mp hinsn
  obtain ⟨size, -, -, -, hat⟩ := disassembled_decoded (hgraphs insn hgraph)
  have hcategory := hat.target (htarget ▸ haddr)
  unfold Insn.isTransfer
  rw [hat.direct]
  simpa [or_assoc] using hcategory

end

/-! ### Graphs of a binary -/

theorem blockInsns_disasm {disasm : Nat → Option Insn} {n fuel a fin : Nat} {insns : List Insn}
    (h : blockInsns disasm n fuel a = some (insns, fin)) : ∀ insn ∈ insns, ∃ x, disasm x = some insn := by
  induction fuel generalizing a insns fin with
  | zero => cases h
  | succ fuel ih =>
      unfold blockInsns at h
      split at h
      · cases hinsn : disasm a with
        | none =>
            rw [hinsn] at h
            cases h
            exact fun insn hmem => absurd hmem List.not_mem_nil
        | some first =>
            rw [hinsn] at h
            dsimp only at h
            have hsingle : ∀ insn ∈ [first], ∃ x, disasm x = some insn := fun insn hmem =>
              ⟨a, hinsn.trans (congrArg some (List.mem_singleton.mp hmem).symm)⟩
            split at h
            · cases h
              exact hsingle
            · split at h
              · cases h
                exact hsingle
              · obtain ⟨rest, hrest, heq⟩ := Option.map_eq_some_iff.mp h
                cases heq
                intro insn hmem
                rcases List.mem_cons.mp hmem with rfl | hmem
                · exact ⟨a, hinsn⟩
                · exact ih hrest insn hmem
      · cases h
        exact fun insn hmem => absurd hmem List.not_mem_nil

theorem buildBlocks_disasm {disasm : Nat → Option Insn} {fuel fin : Nat} {leaders : List Nat}
    {blocks : List E9BasicBlock} (h : buildBlocks disasm fuel fin leaders = some blocks) :
    ∀ block ∈ blocks, ∀ insn ∈ block.insns, ∃ x, disasm x = some insn := by
  induction leaders generalizing blocks with
  | nil =>
      cases h
      exact nofun
  | cons l leaders ih =>
      unfold buildBlocks at h
      obtain ⟨⟨insns, stop⟩, hinsns, h⟩ := Option.bind_eq_some_iff.mp h
      obtain ⟨rest, hrest, h⟩ := Option.bind_eq_some_iff.mp h
      cases h
      intro block hblock
      rcases List.mem_cons.mp hblock with rfl | hblock
      · exact blockInsns_disasm hinsns
      · exact ih hrest block hblock

/-- The instructions of a graph come from the disassembler. -/
theorem e9_cfg_build_disasm {disasm : Nat → Option Insn} {fuel : Nat} {func : E9Function} {cfg : E9CFG}
    (h : e9_cfg_build disasm fuel func = some cfg) :
    ∀ block ∈ cfg.blocks, ∀ insn ∈ block.insns, ∃ x, disasm x = some insn := by
  unfold e9_cfg_build at h
  obtain ⟨leaders, -, h⟩ := Option.bind_eq_some_iff.mp h
  obtain ⟨blocks, hblocks, h⟩ := Option.bind_eq_some_iff.mp h
  cases h
  intro block hblock
  obtain ⟨i, hi⟩ := List.mem_iff_getElem?.mp hblock
  obtain ⟨preds, -, hconnect⟩ := connectBlocks_getElem? blocks i
  obtain ⟨old, hold, rfl⟩ := Option.map_eq_some_iff.mp (hconnect.symm.trans hi)
  exact buildBlocks_disasm hblocks old (List.mem_of_getElem? hold)

/-- Graphs that were built for a binary are graphs of it. -/
theorem graphsOf_built {d : Reader.Block} {bin : E9Binary} {functions : List E9Function}
    (h : ∀ func ∈ functions, ∀ cfg ∈ func.cfg, ∃ fuel, e9_cfg_build (disassembled d bin) fuel func = some cfg) :
    GraphsOf d bin functions := by
  intro insn hinsn
  obtain ⟨func, hfunc, hmem⟩ := List.mem_flatMap.mp hinsn
  cases hcfg : func.cfg with
  | none =>
      rw [hcfg] at hmem
      cases hmem
  | some cfg =>
      rw [hcfg] at hmem
      obtain ⟨block, hblock, hmem⟩ := List.mem_flatMap.mp hmem
      obtain ⟨fuel, hbuilt⟩ := h func hfunc cfg hcfg
      obtain ⟨x, hx⟩ := e9_cfg_build_disasm hbuilt block hblock insn hmem
      obtain ⟨size, -, -, -, hat⟩ := disassembled_decoded hx
      rwa [hat.address]

/-- The function with the loop, with its graph. -/
def loopFunctions : List E9Function := [{ nopLoopFunction with cfg := some nopLoopGraph }]

theorem loopFunctions_graphs : GraphsOf nopLoop x64Binary loopFunctions := by
  refine graphsOf_built fun func hfunc cfg hcfg => ⟨5, ?_⟩
  obtain rfl := List.mem_singleton.mp hfunc
  obtain rfl := Option.some.inj hcfg
  exact nopLoop_built

/-- The loop is found as what jumps to it. -/
theorem nopLoop_xref_found : FindsXrefs loopFunctions 1 8 := by
  refine (find_xrefs_iff loopFunctions_graphs 8).mpr ⟨fun {before after func} heq hcfg => ?_, by decide, by decide⟩
  have hmem : func ∈ loopFunctions := by rw [heq]; simp
  obtain rfl := List.mem_singleton.mp hmem
  cases hcfg

/-- With a function that has no graph yet the search does not end. -/
theorem graphless_diverges : ¬∀ (d : Reader.Block) (bin : E9Binary) (functions : List E9Function) (addr : Nat)
    (max_results : Int), GraphsOf d bin functions → FindsXrefs functions addr max_results := by
  intro h
  obtain ⟨fuel, hfind⟩ := h nopLoop x64Binary [nopLoopFunction] 1 1 nofun
  have hnone : xrefsInFunctions 1 1 fuel [nopLoopFunction] [] = none :=
    @xrefsInFunctions_diverges 1 1 fuel [] [] nopLoopFunction [] rfl (by decide)
  exact nomatch hnone.symm.trans hfind

end E9Patch
