import E9Patch.AnalysisGraph

/-!
The blocks and edges of a control flow graph against the transfers of the code. Leaders come from the instructions up
to the first return, so what is jumped to behind it may be in no block; and an instruction that is neither a call,
a conditional jump nor of the category `OTHER` falls through to the next block without an edge.
-/

namespace E9Patch

variable (disasm : Nat → Option Insn)

/-! ### The code -/

/-- No fall through: a return or a jump. -/
def Insn.Ends (insn : Insn) : Prop := insn.category = .RET ∨ insn.category = .JUMP

/-- A direct jump. -/
def Insn.Jumps (insn : Insn) (target : Nat) : Prop :=
  (insn.category = .JUMP ∨ insn.category = .COND_JUMP) ∧ insn.target_is_indirect = false ∧ insn.target = target

/-- What an address decodes to: an instruction at this address, of at least a byte, and in the address space. -/
structure Decodes (func : E9Function) : Prop where
  address : ∀ {x : Nat} {insn : Insn}, disasm x = some insn → insn.address = x
  size : ∀ {x : Nat} {insn : Insn}, disasm x = some insn → 0 < insn.size
  inside : ∀ {x : Nat} {insn : Insn}, func.address ≤ x → x < func.end_addr → disasm x = some insn → x + insn.size < 2 ^ 64

/-- What is reached from the entry by fall-through and direct jumps, within the range. -/
inductive Reached (start fin : Nat) : Nat → Prop where
  | entry : start < fin → Reached start fin start
  | fall {x : Nat} {insn : Insn} : Reached start fin x → disasm x = some insn → ¬insn.Ends → x + insn.size < fin →
      Reached start fin (x + insn.size)
  | jump {x target : Nat} {insn : Insn} : Reached start fin x → disasm x = some insn → insn.Jumps target →
      start ≤ target → target < fin → Reached start fin target

/-- Control passes from the end of a block to the address. -/
def Insn.Transfers (insn : Insn) (target : Nat) : Prop :=
  insn.Jumps target ∨ ¬insn.Ends ∧ insn.address + insn.size = target

/-- The blocks have distinct starts and disjoint ranges, what is reached is in exactly one, the successors are where
control passes to, and the predecessors are the inverse. -/
structure E9CFG.Exact (func : E9Function) (cfg : E9CFG) : Prop where
  distinct : ∀ {i j : Nat} {b c : E9BasicBlock}, cfg.blocks[i]? = some b → cfg.blocks[j]? = some c →
    b.start_addr = c.start_addr → i = j
  disjoint : ∀ {i j a : Nat} {b c : E9BasicBlock}, cfg.blocks[i]? = some b → cfg.blocks[j]? = some c →
    b.start_addr ≤ a → a < b.end_addr → c.start_addr ≤ a → a < c.end_addr → i = j
  held : ∀ {x : Nat} {insn : Insn}, Reached disasm func.address func.end_addr x → disasm x = some insn →
    ∃! i : Nat, ∃ b, cfg.blocks[i]? = some b ∧ insn ∈ b.insns
  successors : ∀ {i j : Nat} {b c : E9BasicBlock}, cfg.blocks[i]? = some b → cfg.blocks[j]? = some c →
    (j ∈ b.successors ↔ ∃ last, b.insns.getLast? = some last ∧ last.Transfers c.start_addr)
  predecessors : ∀ {i j : Nat} {b c : E9BasicBlock}, cfg.blocks[i]? = some b → cfg.blocks[j]? = some c →
    c.predecessors.count i = b.successors.count j

/-! ### Leaders -/

/-- The addresses from `a` on, one instruction behind the other, up to the first return. -/
inductive Sweep (fin : Nat) : Nat → Nat → Prop where
  | here {a : Nat} : a < fin → Sweep fin a a
  | next {a x : Nat} {insn : Insn} : a < fin → disasm a = some insn → insn.category ≠ .RET →
      Sweep fin (a + insn.size) x → Sweep fin a x

/-- The instruction at `y` makes `x` a leader: it is the target of a call or a jump, or stands behind a call or a
conditional jump. -/
def GivesLeader (start fin y x : Nat) : Prop :=
  ∃ insn, disasm y = some insn ∧ (insn.category = .CALL ∨ insn.category = .JUMP ∨ insn.category = .COND_JUMP) ∧
    (insn.target_is_indirect = false ∧ start ≤ insn.target ∧ insn.target < fin ∧ x = insn.target ∨
      insn.category ≠ .JUMP ∧ y + insn.size < fin ∧ x = y + insn.size)

/-- The entry, and what the instructions up to the first return give. -/
def Leader (start fin x : Nat) : Prop := x = start ∨ ∃ y, Sweep disasm fin start y ∧ GivesLeader disasm start fin y x

/-- Between a leader and the next one, or the end of the function. -/
def UpTo (start fin l n : Nat) : Prop :=
  Leader disasm start fin l ∧
    (Leader disasm start fin n ∧ l < n ∧ (∀ m, Leader disasm start fin m → l < m → n ≤ m) ∨
      n = fin ∧ ∀ m, Leader disasm start fin m → m ≤ l)

/-- What is run through from `a` on, up to `n` or to the first return or jump. -/
inductive Run (n : Nat) : Nat → Nat → Prop where
  | here {a : Nat} {insn : Insn} : a < n → disasm a = some insn → Run n a a
  | next {a x : Nat} {insn : Insn} : a < n → disasm a = some insn → ¬insn.Ends → Run n (a + insn.size) x → Run n a x

/-- A leader stands before the address, or at it, with no other leader, return or jump in between. -/
def LedTo (start fin x : Nat) : Prop := ∃ l n, UpTo disasm start fin l n ∧ Run disasm n l x

/-- The run ends behind the instruction at `x`. -/
def Stops (n x : Nat) (insn : Insn) : Prop := insn.Ends ∨ n ≤ x + insn.size ∨ disasm (x + insn.size) = none

/-- The category has an edge to the next block. -/
def Insn.HasFall (insn : Insn) : Prop := insn.category = .COND_JUMP ∨ insn.category = .CALL ∨ insn.category = .OTHER

/-- What falls from `x` to the leader `n` has the edge for it. Where the instruction does not end at the leader, the
edge is right only as that of a jump, and nothing may start where it does end. -/
def FallsRight (start fin n x : Nat) (insn : Insn) : Prop :=
  if x + insn.size = n then insn.HasFall
  else (insn.HasFall → insn.Jumps n) ∧ ¬Leader disasm start fin (x + insn.size)

/-- When the graph is exact: no return or jump reaches over the next leader, what reachable code jumps to is covered,
as is what it falls to over a leader, and what falls from one block to the next has the edge for it. -/
structure FollowsFlow (start fin : Nat) : Prop where
  ends : ∀ {l n x : Nat} {insn : Insn}, UpTo disasm start fin l n → Leader disasm start fin n → Run disasm n l x →
    disasm x = some insn → insn.Ends → x + insn.size ≤ n
  jumps : ∀ {x target : Nat} {insn : Insn}, Reached disasm start fin x → disasm x = some insn → insn.Jumps target → start ≤ target →
    target < fin → (disasm target).isSome → LedTo disasm start fin target
  skips : ∀ {x m : Nat} {insn : Insn}, Reached disasm start fin x → disasm x = some insn → ¬insn.Ends → x + insn.size < fin →
    Leader disasm start fin m → x < m → m < x + insn.size → (disasm (x + insn.size)).isSome →
    LedTo disasm start fin (x + insn.size)
  falls : ∀ {l n x : Nat} {insn : Insn}, UpTo disasm start fin l n → Leader disasm start fin n → Run disasm n l x →
    disasm x = some insn → ¬insn.Ends → Stops disasm n x insn → FallsRight disasm start fin n x insn

/-! ### First pass -/

variable {disasm}

theorem mem_addLeader {leaders : List Nat} {addr x : Nat} : x ∈ addLeader leaders addr ↔ x ∈ leaders ∨ x = addr := by
  unfold addLeader
  split
  · rename_i h
    have hmem : addr ∈ leaders := List.contains_iff_mem.mp h
    constructor
    · exact Or.inl
    · rintro (h | rfl)
      · exact h
      · exact hmem
  · rw [List.mem_append, List.mem_singleton]

theorem addLeader_nodup {leaders : List Nat} (h : leaders.Nodup) (addr : Nat) : (addLeader leaders addr).Nodup := by
  unfold addLeader
  split
  · exact h
  · rename_i hnot
    refine List.nodup_append.mpr ⟨h, List.pairwise_singleton _ addr, fun a ha b hb heq => hnot ?_⟩
    rw [List.mem_singleton.mp hb] at heq
    exact List.contains_iff_mem.mpr (heq ▸ ha)

theorem addLeader_length (leaders : List Nat) (addr : Nat) : leaders.length ≤ (addLeader leaders addr).length := by
  unfold addLeader
  split
  · exact Nat.le_refl _
  · rw [List.length_append]
    exact Nat.le_add_right _ _

theorem addrPlus_eq {addr size : Nat} (h : addr + size < 2 ^ 64) : addrPlus addr size = addr + size := by
  unfold addrPlus
  omega

section
variable {start fin : Nat}

/-- The leaders of an instruction that does not wrap around. -/
theorem mem_insnLeaders {insn : Insn} {addr x : Nat} {leaders : List Nat} (hinsn : disasm addr = some insn)
    (hwrap : addr + insn.size < 2 ^ 64) :
    x ∈ insnLeaders start fin insn addr leaders ↔ x ∈ leaders ∨ GivesLeader disasm start fin addr x := by
  have hgives : GivesLeader disasm start fin addr x ↔
      (insn.category = .CALL ∨ insn.category = .JUMP ∨ insn.category = .COND_JUMP) ∧
        (insn.target_is_indirect = false ∧ start ≤ insn.target ∧ insn.target < fin ∧ x = insn.target ∨
          insn.category ≠ .JUMP ∧ addr + insn.size < fin ∧ x = addr + insn.size) := by
    unfold GivesLeader
    rw [hinsn]
    simp only [Option.some.injEq, exists_eq_left']
  have hadd : ∀ (p : Prop) [Decidable p] (ls : List Nat) (a : Nat),
      x ∈ (if p then addLeader ls a else ls) ↔ x ∈ ls ∨ p ∧ x = a := by
    intro p _ ls a
    by_cases hp : p
    · rw [if_pos hp, mem_addLeader, and_iff_right hp]
    · rw [if_neg hp, or_iff_left fun h => hp h.1]
  rw [hgives]
  unfold insnLeaders
  rw [addrPlus_eq hwrap]
  by_cases hcat : insn.category = .CALL ∨ insn.category = .JUMP ∨ insn.category = .COND_JUMP
  · rw [if_pos hcat, and_iff_right hcat]
    dsimp only
    rw [hadd, hadd, or_assoc, and_assoc, and_assoc, and_assoc]
  · rw [if_neg hcat, or_iff_left fun h => hcat h.1]

theorem GivesLeader.range {y x : Nat} (hy : start ≤ y) (h : GivesLeader disasm start fin y x) : start ≤ x ∧ x < fin := by
  obtain ⟨insn, -, -, ⟨-, hlow, hhigh, rfl⟩ | ⟨-, hnext, rfl⟩⟩ := h
  · exact ⟨hlow, hhigh⟩
  · exact ⟨Nat.le_add_right_of_le hy, hnext⟩

theorem insnLeaders_nodup {insn : Insn} {addr : Nat} {leaders : List Nat} (h : leaders.Nodup) :
    (insnLeaders start fin insn addr leaders).Nodup := by
  unfold insnLeaders
  split
  · dsimp only
    split <;> split <;> first | exact addLeader_nodup (addLeader_nodup h _) _ | exact addLeader_nodup h _ | exact h
  · exact h

theorem insnLeaders_length (insn : Insn) (addr : Nat) (leaders : List Nat) :
    leaders.length ≤ (insnLeaders start fin insn addr leaders).length := by
  have htwo : ∀ a b, leaders.length ≤ (addLeader (addLeader leaders a) b).length :=
    fun a b => Nat.le_trans (addLeader_length leaders a) (addLeader_length _ b)
  unfold insnLeaders
  split
  · dsimp only
    split <;> split <;> first | exact htwo _ _ | exact addLeader_length _ _ | exact Nat.le_refl _
  · exact Nat.le_refl _

theorem sweep_iff {a x : Nat} {insn : Insn} (ha : a < fin) (hinsn : disasm a = some insn) :
    Sweep disasm fin a x ↔ x = a ∨ insn.category ≠ .RET ∧ Sweep disasm fin (a + insn.size) x := by
  constructor
  · intro h
    cases h with
    | here => exact Or.inl rfl
    | next _ hother hret hrest =>
        obtain rfl := Option.some.inj (hinsn.symm.trans hother)
        exact Or.inr ⟨hret, hrest⟩
  · rintro (rfl | ⟨hret, hrest⟩)
    · exact Sweep.here ha
    · exact Sweep.next ha hinsn hret hrest

end

section
variable {func : E9Function} (hd : Decodes disasm func)
include hd

/-- The first pass ends, and below the limit it finds all leaders. -/
theorem findLeaders_spec {fuel addr : Nat} {leaders : List Nat} (haddr : func.address ≤ addr)
    (hfuel : func.end_addr < fuel + addr) (hpos : 0 < fuel) (hnodup : leaders.Nodup) :
    ∃ all, findLeaders disasm func.address func.end_addr fuel addr leaders = some all ∧ all.Nodup ∧
      leaders.length ≤ all.length ∧ (∀ x ∈ all, x ∈ leaders ∨ func.address ≤ x ∧ x < func.end_addr) ∧
      (all.length < MAX_BLOCKS - 2 → ∀ x, x ∈ all ↔ x ∈ leaders ∨
        ∃ y, Sweep disasm func.end_addr addr y ∧ GivesLeader disasm func.address func.end_addr y x) := by
  induction fuel generalizing addr leaders with
  | zero => omega
  | succ fuel ih =>
      unfold findLeaders
      by_cases hmore : addr < func.end_addr ∧ leaders.length < MAX_BLOCKS - 2
      · rw [if_pos hmore]
        cases hinsn : disasm addr with
        | none =>
            refine ⟨leaders, rfl, hnodup, Nat.le_refl _, fun _ => Or.inl, fun _ x => (or_iff_left ?_).symm⟩
            rintro ⟨y, hsweep, insn, hy, -⟩
            cases hsweep with
            | here => exact nomatch hinsn.symm.trans hy
            | next _ hother => exact nomatch hinsn.symm.trans hother
        | some insn =>
            have hsize := hd.size hinsn
            have hwrap := hd.inside haddr hmore.1 hinsn
            have hgrow := @insnLeaders_length func.address func.end_addr insn addr leaders
            have hstep : ∀ x, x ∈ insnLeaders func.address func.end_addr insn addr leaders ↔
                x ∈ leaders ∨ GivesLeader disasm func.address func.end_addr addr x := fun x => mem_insnLeaders hinsn hwrap
            have hinner : ∀ x ∈ insnLeaders func.address func.end_addr insn addr leaders,
                x ∈ leaders ∨ func.address ≤ x ∧ x < func.end_addr :=
              fun x hx => ((hstep x).mp hx).imp_right fun hgives => hgives.range haddr
            dsimp only
            by_cases hret : insn.category = .RET
            · rw [if_pos hret]
              refine ⟨_, rfl, insnLeaders_nodup hnodup, hgrow, hinner, fun _ x => (hstep x).trans (or_congr_right ?_)⟩
              constructor
              · exact fun hgives => ⟨addr, Sweep.here hmore.1, hgives⟩
              · rintro ⟨y, hsweep, hgives⟩
                rcases (sweep_iff hmore.1 hinsn).mp hsweep with rfl | ⟨hnot, -⟩
                · exact hgives
                · exact absurd hret hnot
            · obtain ⟨all, hall, hsub, hlen, hrange, hmem⟩ := @ih (addr + insn.size)
                (insnLeaders func.address func.end_addr insn addr leaders) (by omega) (by omega) (by omega)
                (insnLeaders_nodup hnodup)
              rw [if_neg hret, addrPlus_eq hwrap]
              refine ⟨all, hall, hsub, Nat.le_trans hgrow hlen, fun x hx => ?_, fun hlimit x => ?_⟩
              · rcases hrange x hx with hx | hx
                · exact hinner x hx
                · exact Or.inr hx
              rw [hmem hlimit x, hstep x, or_assoc]
              refine or_congr_right ⟨?_, ?_⟩
              · rintro (hgives | ⟨y, hsweep, hgives⟩)
                · exact ⟨addr, Sweep.here hmore.1, hgives⟩
                · exact ⟨y, Sweep.next hmore.1 hinsn hret hsweep, hgives⟩
              · rintro ⟨y, hsweep, hgives⟩
                rcases (sweep_iff hmore.1 hinsn).mp hsweep with rfl | ⟨-, hrest⟩
                · exact Or.inl hgives
                · exact Or.inr ⟨y, hrest, hgives⟩
      · rw [if_neg hmore]
        refine ⟨leaders, rfl, hnodup, Nat.le_refl _, fun _ => Or.inl, fun hlimit x => (or_iff_left ?_).symm⟩
        rintro ⟨y, hsweep, -⟩
        cases hsweep with
        | here hlt => exact hmore ⟨hlt, hlimit⟩
        | next hlt => exact hmore ⟨hlt, hlimit⟩

/-! ### Second pass -/

omit hd in
theorem run_iff {n a x : Nat} {insn : Insn} (ha : a < n) (hinsn : disasm a = some insn) :
    Run disasm n a x ↔ x = a ∨ ¬insn.Ends ∧ Run disasm n (a + insn.size) x := by
  constructor
  · intro h
    cases h with
    | here => exact Or.inl rfl
    | next _ hother hends hrest =>
        obtain rfl := Option.some.inj (hinsn.symm.trans hother)
        exact Or.inr ⟨hends, hrest⟩
  · rintro (rfl | ⟨hends, hrest⟩)
    · exact Run.here ha hinsn
    · exact Run.next ha hinsn hends hrest

omit hd in
/-- A run starts below its end, at an instruction. -/
theorem Run.first {n a x : Nat} (h : Run disasm n a x) : a < n ∧ ∃ insn, disasm a = some insn := by
  cases h with
  | here ha hinsn => exact ⟨ha, _, hinsn⟩
  | next ha hinsn => exact ⟨ha, _, hinsn⟩

theorem Run.between {n a x : Nat} (h : Run disasm n a x) : a ≤ x ∧ x < n ∧ ∃ insn, disasm x = some insn := by
  induction h with
  | here ha hinsn => exact ⟨Nat.le_refl _, ha, _, hinsn⟩
  | next ha hinsn hends hrest ih =>
      have hsize := hd.size hinsn
      exact ⟨by omega, ih.2⟩

/-- The instructions of a block and its end, for a sweep from `a` up to `n`. -/
structure Filled (disasm : Nat → Option Insn) (n a : Nat) (insns : List Insn) (fin : Nat) : Prop where
  mem : ∀ insn, insn ∈ insns ↔ ∃ x, Run disasm n a x ∧ disasm x = some insn
  last : ∀ insn, insns.getLast? = some insn ↔ ∃ x, Run disasm n a x ∧ disasm x = some insn ∧ Stops disasm n x insn
  fin : (∃ x insn, Run disasm n a x ∧ disasm x = some insn ∧ insn.Ends ∧ fin = x + insn.size) ∨
    (∀ x insn, Run disasm n a x → disasm x = some insn → ¬insn.Ends) ∧ fin = n

omit hd in
/-- Nothing is run through. -/
theorem Filled.empty {n a : Nat} (h : ∀ x, ¬Run disasm n a x) : Filled disasm n a [] n where
  mem := fun _ => ⟨nofun, fun ⟨x, hrun, _⟩ => absurd hrun (h x)⟩
  last := fun _ => ⟨nofun, fun ⟨x, hrun, _⟩ => absurd hrun (h x)⟩
  fin := Or.inr ⟨fun x _ hrun => absurd hrun (h x), rfl⟩

omit hd in
theorem Filled.of_empty {n a fin : Nat} {insns : List Insn} (h : Filled disasm n a insns fin)
    (hempty : ∀ x, ¬Run disasm n a x) : insns = [] ∧ fin = n := by
  constructor
  · refine List.eq_nil_iff_forall_not_mem.mpr fun insn hmem => ?_
    obtain ⟨x, hrun, -⟩ := (h.mem insn).mp hmem
    exact hempty x hrun
  · rcases h.fin with ⟨x, _, hrun, -⟩ | ⟨-, hfin⟩
    · exact absurd hrun (hempty x)
    · exact hfin

omit hd in
/-- Nothing is run through behind an instruction that is the last, but for a return or a jump. -/
theorem Stops.run_empty {n a : Nat} {insn : Insn} (h : Stops disasm n a insn) (hends : ¬insn.Ends) :
    ∀ x, ¬Run disasm n (a + insn.size) x := by
  intro x hrun
  obtain ⟨hlt, other, hother⟩ := hrun.first
  rcases h with h | h | h
  · exact hends h
  · omega
  · exact nomatch h.symm.trans hother

omit hd in
/-- The sweep stops behind its first instruction. -/
theorem Filled.single {n a : Nat} {insn : Insn} (ha : a < n) (hinsn : disasm a = some insn)
    (hstops : Stops disasm n a insn) :
    Filled disasm n a [insn] (if insn.category = .RET ∨ insn.category = .JUMP then a + insn.size else n) := by
  have hrun : ∀ x, Run disasm n a x ↔ x = a := by
    intro x
    rw [run_iff ha hinsn, or_iff_left]
    exact fun ⟨hends, hrest⟩ => hstops.run_empty hends x hrest
  have heq : ∀ other, other = insn ↔ disasm a = some other := fun other => by
    rw [hinsn, Option.some.injEq]
    exact eq_comm
  refine ⟨fun other => ?_, fun other => ?_, ?_⟩
  · simp only [hrun, exists_eq_left, List.mem_singleton, heq]
  · simp only [hrun, exists_eq_left, List.getLast?_singleton, Option.some.injEq]
    constructor
    · rintro rfl
      exact ⟨hinsn, hstops⟩
    · exact fun h => Option.some.inj (hinsn.symm.trans h.1)
  · split
    · rename_i hends
      exact Or.inl ⟨a, insn, (hrun a).mpr rfl, hinsn, hends, rfl⟩
    · rename_i hends
      refine Or.inr ⟨fun x other hx hother => ?_, rfl⟩
      obtain rfl := (hrun x).mp hx
      obtain rfl := Option.some.inj (hinsn.symm.trans hother)
      exact hends

omit hd in
/-- An instruction in front of a sweep that goes on. -/
theorem Filled.cons {n a fin : Nat} {insn : Insn} {insns : List Insn} (ha : a < n) (hinsn : disasm a = some insn)
    (hstops : ¬Stops disasm n a insn) (h : Filled disasm n (a + insn.size) insns fin) :
    Filled disasm n a (insn :: insns) fin := by
  have hends : ¬insn.Ends := fun hends => hstops (Or.inl hends)
  have hrun : ∀ x, Run disasm n a x ↔ x = a ∨ Run disasm n (a + insn.size) x := fun x => by
    rw [run_iff ha hinsn, and_iff_right hends]
  have hne : insns ≠ [] := by
    obtain ⟨next, hnext⟩ := Option.ne_none_iff_exists'.mp fun hnone => hstops (Or.inr (Or.inr hnone))
    have hbelow : a + insn.size < n := by
      by_contra hnot
      exact hstops (Or.inr (Or.inl (not_lt.mp hnot)))
    exact List.ne_nil_of_mem ((h.mem next).mpr ⟨_, Run.here hbelow hnext, hnext⟩)
  refine ⟨fun other => ?_, fun other => ?_, ?_⟩
  · rw [List.mem_cons, h.mem]
    constructor
    · rintro (rfl | ⟨x, hx, hother⟩)
      · exact ⟨a, Run.here ha hinsn, hinsn⟩
      · exact ⟨x, (hrun x).mpr (Or.inr hx), hother⟩
    · rintro ⟨x, hx, hother⟩
      rcases (hrun x).mp hx with rfl | hx
      · exact Or.inl (Option.some.inj (hother.symm.trans hinsn))
      · exact Or.inr ⟨x, hx, hother⟩
  · rw [List.getLast?_cons, List.getLast?_eq_some_getLast hne, Option.getD_some, ← List.getLast?_eq_some_getLast hne, h.last]
    constructor
    · rintro ⟨x, hx, hother⟩
      exact ⟨x, (hrun x).mpr (Or.inr hx), hother⟩
    · rintro ⟨x, hx, hother, hstop⟩
      rcases (hrun x).mp hx with rfl | hx
      · obtain rfl := Option.some.inj (hinsn.symm.trans hother)
        exact absurd hstop hstops
      · exact ⟨x, hx, hother, hstop⟩
  · rcases h.fin with ⟨x, other, hx, hother⟩ | ⟨hnone, rfl⟩
    · exact Or.inl ⟨x, other, (hrun x).mpr (Or.inr hx), hother⟩
    · refine Or.inr ⟨fun x other hx hother => ?_, rfl⟩
      rcases (hrun x).mp hx with rfl | hx
      · obtain rfl := Option.some.inj (hinsn.symm.trans hother)
        exact hends
      · exact hnone x other hx hother

omit hd in
/-- A run is extended by what its last instruction falls to. -/
theorem Run.fall {n l x : Nat} {insn next : Insn} (h : Run disasm n l x) (hinsn : disasm x = some insn)
    (hends : ¬insn.Ends) (hlt : x + insn.size < n) (hnext : disasm (x + insn.size) = some next) :
    Run disasm n l (x + insn.size) := by
  induction h with
  | here ha _ => exact Run.next ha hinsn hends (Run.here hlt hnext)
  | next ha hother hends' _ ih => exact Run.next ha hother hends' (ih hinsn hlt hnext)

/-- A return or a jump that is run through is the last instruction, and the block ends behind it. -/
theorem Filled.ends {n l x fin : Nat} {insns : List Insn} {insn : Insn} (hfilled : Filled disasm n l insns fin)
    (hrun : Run disasm n l x) (hinsn : disasm x = some insn) (hends : insn.Ends) : fin = x + insn.size := by
  rcases hfilled.fin with ⟨y, other, hy, hother, hends', rfl⟩ | ⟨hnone, -⟩
  · have hlast := (hfilled.last insn).mpr ⟨x, hrun, hinsn, Or.inl hends⟩
    have hlast' := (hfilled.last other).mpr ⟨y, hy, hother, Or.inl hends'⟩
    obtain rfl := Option.some.inj (hlast.symm.trans hlast')
    rw [← hd.address hinsn, ← hd.address hother]
  · exact absurd hends (hnone x insn hrun hinsn)

theorem blockInsns_spec {n fuel a : Nat} (hn : n ≤ func.end_addr) (ha : func.address ≤ a) (hfuel : n < fuel + a)
    (hpos : 0 < fuel) : ∃ insns fin, blockInsns disasm n fuel a = some (insns, fin) ∧ Filled disasm n a insns fin := by
  induction fuel generalizing a with
  | zero => omega
  | succ fuel ih =>
      unfold blockInsns
      by_cases hlt : a < n
      · rw [if_pos hlt]
        cases hinsn : disasm a with
        | none =>
            refine ⟨_, _, rfl, Filled.empty fun x hrun => ?_⟩
            obtain ⟨-, insn, hother⟩ := hrun.first
            exact nomatch hinsn.symm.trans hother
        | some insn =>
            have hsize := hd.size hinsn
            have hwrap := hd.inside ha (by omega) hinsn
            dsimp only
            rw [addrPlus_eq hwrap]
            by_cases hends : insn.category = .RET ∨ insn.category = .JUMP
            · have hfilled := Filled.single hlt hinsn (Or.inl hends)
              rw [if_pos hends] at hfilled ⊢
              exact ⟨_, _, rfl, hfilled⟩
            · rw [if_neg hends]
              by_cases hcond : insn.category = .COND_JUMP ∧ a + insn.size ≥ n
              · have hfilled := Filled.single hlt hinsn (Or.inr (Or.inl hcond.2))
                rw [if_neg hends] at hfilled
                rw [if_pos hcond]
                exact ⟨_, _, rfl, hfilled⟩
              · obtain ⟨insns, fin, hblock, hfilled⟩ := @ih (a + insn.size) (by omega) (by omega) (by omega)
                rw [if_neg hcond, hblock]
                refine ⟨_, _, rfl, ?_⟩
                by_cases hstops : Stops disasm n a insn
                · obtain ⟨rfl, rfl⟩ := hfilled.of_empty (hstops.run_empty hends)
                  have hsingle := Filled.single hlt hinsn hstops
                  rwa [if_neg hends] at hsingle
                · exact hfilled.cons hlt hinsn hstops
      · rw [if_neg hlt]
        exact ⟨_, _, rfl, Filled.empty fun x hrun => hlt hrun.first.1⟩

/-- Each leader has its block, filled up to the next leader. -/
theorem buildBlocks_spec {fuel : Nat} (hfuel : func.end_addr < fuel + func.address) (hpos : 0 < fuel) {leaders : List Nat}
    (hfrom : ∀ l ∈ leaders, func.address ≤ l) (hto : ∀ l ∈ leaders.tail, l ≤ func.end_addr) :
    ∃ blocks, buildBlocks disasm fuel func.end_addr leaders = some blocks ∧ blocks.length = leaders.length ∧
      ∀ i l, leaders[i]? = some l → ∃ insns fin, blocks[i]? = some ⟨l, fin, insns, [], []⟩ ∧
        Filled disasm (leaders[i + 1]?.getD func.end_addr) l insns fin := by
  induction leaders with
  | nil => exact ⟨[], rfl, rfl, nofun⟩
  | cons l leaders ih =>
      have hl : func.address ≤ l := hfrom l List.mem_cons_self
      have hnext : leaders.headD func.end_addr = (l :: leaders)[0 + 1]?.getD func.end_addr := by
        cases leaders <;> rfl
      have hbound : leaders.headD func.end_addr ≤ func.end_addr := by
        cases leaders with
        | nil => exact Nat.le_refl _
        | cons m leaders => exact hto m List.mem_cons_self
      obtain ⟨insns, fin, hinsns, hfilled⟩ := blockInsns_spec hd hbound hl (by omega) hpos
      obtain ⟨blocks, hblocks, hlen, hall⟩ := ih (fun m hm => hfrom m (List.mem_cons_of_mem _ hm))
        fun m hm => hto m (List.mem_of_mem_tail hm)
      refine ⟨⟨l, fin, insns, [], []⟩ :: blocks, ?_, congrArg Nat.succ hlen, fun i m hm => ?_⟩
      · unfold buildBlocks
        rw [hinsns, hblocks]
        rfl
      · cases i with
        | zero =>
            obtain rfl := Option.some.inj hm
            exact ⟨insns, fin, rfl, hnext ▸ hfilled⟩
        | succ i => exact hall i m hm

end

/-! ### Third pass -/

/-- An edge is added to the two lists of its ends. -/
theorem addEdge_getElem? (i j k : Nat) (blocks : List E9BasicBlock) :
    (addEdge i blocks j)[k]? = blocks[k]?.map fun block =>
      { block with successors := block.successors ++ if k = i then [j] else [],
                   predecessors := block.predecessors ++ if k = j then [i] else [] } := by
  unfold addEdge
  rw [List.getElem?_modify, List.getElem?_modify]
  cases blocks[k]? with
  | none => rfl
  | some block =>
      by_cases hi : i = k
      · subst hi
        by_cases hj : j = i
        · subst hj
          simp
        · simp [hj, Ne.symm hj]
      · by_cases hj : j = k
        · subst hj
          simp [hi, Ne.symm hi]
        · simp [hi, hj, Ne.symm hi, Ne.symm hj]

theorem foldl_addEdge_getElem? (i k : Nat) (js : List Nat) (blocks : List E9BasicBlock) :
    (js.foldl (addEdge i) blocks)[k]? = blocks[k]?.map fun block =>
      { block with successors := block.successors ++ if k = i then js else [],
                   predecessors := block.predecessors ++ List.replicate (js.count k) i } := by
  induction js generalizing blocks with
  | nil =>
      rw [List.foldl_nil]
      cases blocks[k]? with
      | none => rfl
      | some block => simp
  | cons j js ih =>
      rw [List.foldl_cons, ih, addEdge_getElem?, Option.map_map]
      congr 1
      funext block
      by_cases hj : k = j
      · subst hj
        by_cases hi : k = i <;> simp [hi, List.replicate_succ]
      · by_cases hi : k = i
        · subst hi
          simp [hj, Ne.symm hj]
        · simp [hi, hj, Ne.symm hj]

/-- The edges of block `i`. -/
def edgesOf (all : List E9BasicBlock) (i : Nat) : List Nat := all[i]?.elim [] (blockEdges all i)

theorem connectFrom_getElem? {all rest : List E9BasicBlock} {i : Nat} (hrest : rest = all.drop i) (k : Nat)
    (blocks : List E9BasicBlock) : ∃ preds : List Nat,
      (∀ m, preds.count m = if i ≤ m then (edgesOf all m).count k else 0) ∧
      (connectFrom all i rest blocks)[k]? = blocks[k]?.map fun block =>
        { block with successors := block.successors ++ if i ≤ k then edgesOf all k else [],
                     predecessors := block.predecessors ++ preds } := by
  induction rest generalizing i blocks with
  | nil =>
      have hbehind : ∀ m, i ≤ m → edgesOf all m = [] := fun m hm => by
        have hlen : all.length ≤ m := Nat.le_trans (List.drop_eq_nil_iff.mp hrest.symm) hm
        unfold edgesOf
        rw [List.getElem?_eq_none hlen]
        rfl
      refine ⟨[], fun m => ?_, ?_⟩
      · split
        · rename_i hm
          rw [hbehind m hm]
          rfl
        · rfl
      · have hnone : (if i ≤ k then edgesOf all k else []) = [] := by
          split
          · rename_i hk
            exact hbehind k hk
          · rfl
        rw [hnone]
        unfold connectFrom
        cases blocks[k]? with
        | none => rfl
        | some block => simp
  | cons block rest ih =>
      have hget : all[i]? = some block := by
        rw [← List.head?_drop, ← hrest]
        rfl
      have hedges : edgesOf all i = blockEdges all i block := by
        unfold edgesOf
        rw [hget]
        rfl
      have htail : rest = all.drop (i + 1) := by
        rw [← List.tail_drop, ← hrest]
        rfl
      obtain ⟨preds, hcount, hconnect⟩ := ih htail ((blockEdges all i block).foldl (addEdge i) blocks)
      refine ⟨List.replicate ((edgesOf all i).count k) i ++ preds, fun m => ?_, ?_⟩
      · rw [List.count_append, hcount, List.count_replicate]
        by_cases hm : m = i
        · subst hm
          rw [if_neg (Nat.not_succ_le_self m), if_pos (Nat.le_refl m), if_pos (beq_self_eq_true m), Nat.add_zero]
        · by_cases hlt : i + 1 ≤ m
          · rw [if_pos hlt, if_pos (Nat.le_of_succ_le hlt), if_neg (by simpa using fun h => hm h.symm), Nat.zero_add]
          · rw [if_neg hlt, if_neg (show ¬i ≤ m by omega), if_neg (by simpa using fun h => hm h.symm)]
      · unfold connectFrom
        rw [hconnect, foldl_addEdge_getElem?, Option.map_map, ← hedges]
        congr 1
        funext b
        by_cases hk : k = i
        · subst hk
          simp [Nat.not_succ_le_self k]
        · by_cases hlt : i + 1 ≤ k
          · simp [hk, hlt, Nat.le_of_succ_le hlt]
          · have hnot : ¬i ≤ k := by omega
            simp [hk, hlt, hnot]

/-- What the third pass does to a block. -/
theorem connectBlocks_getElem? (blocks : List E9BasicBlock) (k : Nat) : ∃ preds : List Nat,
    (∀ m, preds.count m = (edgesOf blocks m).count k) ∧
    (connectBlocks blocks)[k]? = blocks[k]?.map fun block =>
      { block with successors := block.successors ++ edgesOf blocks k,
                   predecessors := block.predecessors ++ preds } := by
  obtain ⟨preds, hcount, hconnect⟩ := @connectFrom_getElem? blocks blocks 0 rfl k blocks
  exact ⟨preds, fun m => (hcount m).trans (if_pos (Nat.zero_le m)), by
    rw [connectBlocks, hconnect]
    simp only [Nat.zero_le, if_true]⟩

theorem addEdge_length (i j : Nat) (blocks : List E9BasicBlock) : (addEdge i blocks j).length = blocks.length := by
  unfold addEdge
  rw [List.length_modify, List.length_modify]

theorem connectFrom_length {all rest : List E9BasicBlock} {i : Nat} (blocks : List E9BasicBlock) :
    (connectFrom all i rest blocks).length = blocks.length := by
  have hfold : ∀ (i : Nat) (js : List Nat) (blocks : List E9BasicBlock),
      (js.foldl (addEdge i) blocks).length = blocks.length := by
    intro i js
    induction js with
    | nil => exact fun _ => rfl
    | cons j js ih =>
        intro blocks
        rw [List.foldl_cons, ih, addEdge_length]
  induction rest generalizing i blocks with
  | nil => rfl
  | cons block rest ih => exact (ih _).trans (hfold i _ blocks)

/-- The edges of a block: to the targets of its last instruction, and to the next block for some categories. -/
theorem mem_blockEdges {blocks : List E9BasicBlock} {i j : Nat} {block next : E9BasicBlock} {last : Insn}
    (hlast : block.insns.getLast? = some last) (hj : blocks[j]? = some next)
    (hdistinct : ∀ {k : Nat} {b : E9BasicBlock}, blocks[k]? = some b → b.start_addr = next.start_addr → k = j) :
    j ∈ blockEdges blocks i block ↔ last.Jumps next.start_addr ∨ last.HasFall ∧ j = i + 1 := by
  have htarget : j ∈ targetBlock blocks last ↔ last.target = next.start_addr := by
    unfold targetBlock
    rw [Option.mem_toList, List.findIdx?_eq_some_iff_getElem]
    obtain ⟨hlt, hget⟩ := List.getElem?_eq_some_iff.mp hj
    constructor
    · rintro ⟨hlen, hstart, -⟩
      rw [← of_decide_eq_true hstart, hget]
    · intro heq
      refine ⟨hlt, decide_eq_true (by rw [hget, heq]), fun k hk => ?_⟩
      have hne : blocks[k].start_addr ≠ last.target := fun hsame =>
        absurd (hdistinct (List.getElem?_eq_getElem _) (hsame.trans heq)) (by omega)
      simpa using hne
  have hnext : j ∈ nextBlock blocks i ↔ j = i + 1 := by
    unfold nextBlock
    have hlt := (List.getElem?_eq_some_iff.mp hj).1
    split
    · exact List.mem_singleton
    · exact ⟨nofun, fun heq => by omega⟩
  unfold blockEdges Insn.Jumps Insn.HasFall
  rw [hlast]
  dsimp only
  cases hcat : last.category <;> cases hind : last.target_is_indirect <;> simp [htarget, hnext, or_comm]

/-! ### The graph -/

/-- What the passes leave, for the leaders in order. -/
structure LaidOut (disasm : Nat → Option Insn) (func : E9Function) (leaders : List Nat) (cfg : E9CFG) : Prop where
  sorted : leaders.Pairwise (· < ·)
  mem : ∀ x, x ∈ leaders ↔ Leader disasm func.address func.end_addr x
  length : cfg.blocks.length = leaders.length
  block : ∀ {i l : Nat}, leaders[i]? = some l → ∃ b, cfg.blocks[i]? = some b ∧ b.start_addr = l ∧
    Filled disasm (leaders[i + 1]?.getD func.end_addr) l b.insns b.end_addr ∧
    (∀ {j m : Nat}, leaders[j]? = some m → (j ∈ b.successors ↔
      ∃ last, b.insns.getLast? = some last ∧ (last.Jumps m ∨ last.HasFall ∧ j = i + 1))) ∧
    ∀ {j : Nat} {c : E9BasicBlock}, cfg.blocks[j]? = some c → b.predecessors.count j = c.successors.count i

/-- The places of a list in order are ordered as what stands there. -/
theorem lt_of_sorted {xs : List Nat} (h : xs.Pairwise (· < ·)) {i j a b : Nat} (ha : xs[i]? = some a)
    (hb : xs[j]? = some b) : i < j ↔ a < b := by
  obtain ⟨hi, rfl⟩ := List.getElem?_eq_some_iff.mp ha
  obtain ⟨hj, rfl⟩ := List.getElem?_eq_some_iff.mp hb
  have hmono := List.pairwise_iff_getElem.mp h
  constructor
  · exact hmono i j hi hj
  · intro hlt
    rcases Nat.lt_trichotomy i j with hij | rfl | hij
    · exact hij
    · omega
    · have := hmono j i hj hi hij
      omega

theorem eq_of_sorted {xs : List Nat} (h : xs.Pairwise (· < ·)) {i j a : Nat} (ha : xs[i]? = some a)
    (hb : xs[j]? = some a) : i = j := by
  have hij := lt_of_sorted h ha hb
  have hji := lt_of_sorted h hb ha
  omega

/-- The graph is built, and below the limit it is laid out by the leaders. -/
theorem e9_cfg_build_spec {func : E9Function} (hd : Decodes disasm func) {fuel : Nat}
    (hfuel : func.end_addr < fuel + func.address) (hpos : 0 < fuel) :
    ∃ cfg leaders, e9_cfg_build disasm fuel func = some cfg ∧
      (cfg.blocks.length < MAX_BLOCKS - 2 → LaidOut disasm func leaders cfg) := by
  obtain ⟨all, hall, hnodup, -, hrange, hmem⟩ :=
    findLeaders_spec hd (Nat.le_refl _) hfuel hpos (List.pairwise_singleton (· ≠ ·) func.address)
  have hsorted := ExchangeSort.sort_strict hnodup
  have hperm := ExchangeSort.sort_perm all
  have hbounds : ∀ l ∈ ExchangeSort.sort all, l = func.address ∨ func.address ≤ l ∧ l < func.end_addr := fun l hl =>
    (hrange l (hperm.mem_iff.mp hl)).imp_left List.mem_singleton.mp
  have hfrom : ∀ l ∈ ExchangeSort.sort all, func.address ≤ l := fun l hl => by
    rcases hbounds l hl with rfl | ⟨hle, -⟩
    · exact Nat.le_refl _
    · exact hle
  have hto : ∀ l ∈ (ExchangeSort.sort all).tail, l ≤ func.end_addr := by
    cases hcase : ExchangeSort.sort all with
    | nil => exact nofun
    | cons first rest =>
        intro l hl
        rw [hcase] at hsorted hbounds hfrom
        have hlt := List.rel_of_pairwise_cons hsorted hl
        have hfirst := hfrom first List.mem_cons_self
        rcases hbounds l (List.mem_cons_of_mem _ hl) with rfl | ⟨-, hl⟩
        · omega
        · exact Nat.le_of_lt hl
  obtain ⟨blocks, hblocks, hlen, hfill⟩ := buildBlocks_spec hd hfuel hpos hfrom hto
  have hconnected : (connectBlocks blocks).length = blocks.length := connectFrom_length blocks
  refine ⟨_, ExchangeSort.sort all, by rw [e9_cfg_build, hall, Option.bind_eq_bind, Option.bind_some, hblocks]; rfl,
    fun hlimit => ?_⟩
  have hleaders : ∀ x, x ∈ ExchangeSort.sort all ↔ Leader disasm func.address func.end_addr x := fun x => by
    rw [hperm.mem_iff, hmem (by rw [← hperm.length_eq, ← hlen, ← hconnected]; exact hlimit), List.mem_singleton]
    rfl
  have hplaced : ∀ {i : Nat} {b : E9BasicBlock}, blocks[i]? = some b → ∃ l, (ExchangeSort.sort all)[i]? = some l ∧
      b.start_addr = l ∧ b.successors = [] := by
    intro i b hb
    have hlt := (List.getElem?_eq_some_iff.mp hb).1
    rw [hlen] at hlt
    obtain ⟨insns, fin, hget, -⟩ := hfill i _ (List.getElem?_eq_getElem hlt)
    obtain rfl := Option.some.inj (hb.symm.trans hget)
    exact ⟨_, List.getElem?_eq_getElem hlt, rfl, rfl⟩
  refine ⟨hsorted, hleaders, hconnected.trans hlen, fun {i l} hi => ?_⟩
  obtain ⟨insns, fin, hget, hfilled⟩ := hfill i l hi
  obtain ⟨preds, hcount, hblock⟩ := connectBlocks_getElem? blocks i
  rw [hget, Option.map_some] at hblock
  refine ⟨_, hblock, rfl, hfilled, fun {j m} hj => ?_, fun {j c} hc => ?_⟩
  · obtain ⟨nextInsns, nextFin, hnext, -⟩ := hfill j m hj
    have hedges : edgesOf blocks i = blockEdges blocks i ⟨l, fin, insns, [], []⟩ := by
      unfold edgesOf
      rw [hget]
      rfl
    have hsucc : j ∈ edgesOf blocks i ↔ ∃ last, insns.getLast? = some last ∧ (last.Jumps m ∨ last.HasFall ∧ j = i + 1) := by
      rw [hedges]
      cases hlast : insns.getLast? with
      | none =>
          have hnone : blockEdges blocks i ⟨l, fin, insns, [], []⟩ = [] := by
            unfold blockEdges
            rw [hlast]
          rw [hnone]
          simp
      | some last =>
          have hdistinct : ∀ {k : Nat} {b : E9BasicBlock}, blocks[k]? = some b → b.start_addr = m → k = j := by
            intro k b hk hstart
            obtain ⟨m', hm', hb, -⟩ := hplaced hk
            obtain rfl : m' = m := hb.symm.trans hstart
            exact eq_of_sorted hsorted hm' hj
          rw [@mem_blockEdges blocks i j ⟨l, fin, insns, [], []⟩ _ last hlast hnext hdistinct]
          simp only [Option.some.injEq, exists_eq_left']
    exact hsucc
  · obtain ⟨others, -, hother⟩ := connectBlocks_getElem? blocks j
    obtain ⟨b, hb, rfl⟩ := Option.map_eq_some_iff.mp (hother.symm.trans hc)
    obtain ⟨-, -, -, hnone⟩ := hplaced hb
    have hpreds : preds.count j = (b.successors ++ edgesOf blocks j).count i := by
      rw [hnone, List.nil_append, hcount]
    exact hpreds

/-! ### Exactness -/

section
variable {func : E9Function} {leaders : List Nat} {cfg : E9CFG}

theorem Sweep.le {fin a y : Nat} (h : Sweep disasm fin a y) : a ≤ y := by
  induction h with
  | here => exact Nat.le_refl _
  | next ha hinsn hret hrest ih => exact Nat.le_trans (Nat.le_add_right _ _) ih

/-- A leader is the entry, or stands in the function. -/
theorem Leader.range {x : Nat} (h : Leader disasm func.address func.end_addr x) :
    x = func.address ∨ func.address ≤ x ∧ x < func.end_addr := by
  rcases h with rfl | ⟨y, hsweep, hgives⟩
  · exact Or.inl rfl
  · exact Or.inr (hgives.range hsweep.le)

/-- The edge that an instruction has at the end of a block is the right one. -/
theorem fallsRight_iff (hd : Decodes disasm func) {n x : Nat} {insn : Insn} (hinsn : disasm x = some insn) (hends : ¬insn.Ends)
    (hn : Leader disasm func.address func.end_addr n) :
    FallsRight disasm func.address func.end_addr n x insn ↔ ∀ m, Leader disasm func.address func.end_addr m →
      (insn.Jumps m ∨ insn.HasFall ∧ m = n ↔ insn.Transfers m) := by
  have hcond : ∀ {m : Nat}, insn.Jumps m → insn.HasFall := fun hm =>
    Or.inl (hm.1.resolve_left fun hjump => hends (Or.inr hjump))
  unfold FallsRight Insn.Transfers
  rw [hd.address hinsn]
  by_cases hnext : x + insn.size = n
  · rw [if_pos hnext]
    constructor
    · intro hfall m _
      exact or_congr_right ⟨fun h => ⟨hends, hnext.trans h.2.symm⟩, fun h => ⟨hfall, h.2.symm.trans hnext⟩⟩
    · intro hall
      rcases (hall n hn).mpr (Or.inr ⟨hends, hnext⟩) with hjump | ⟨hfall, -⟩
      · exact hcond hjump
      · exact hfall
  · rw [if_neg hnext]
    constructor
    · rintro ⟨hfall, hnone⟩ m hm
      constructor
      · rintro (hjump | ⟨h, rfl⟩)
        · exact Or.inl hjump
        · exact Or.inl (hfall h)
      · rintro (hjump | ⟨-, rfl⟩)
        · exact Or.inl hjump
        · exact absurd hm hnone
    · intro hall
      have hfall : insn.HasFall → insn.Jumps n := fun h => by
        rcases (hall n hn).mp (Or.inr ⟨h, rfl⟩) with hjump | ⟨-, heq⟩
        · exact hjump
        · exact absurd heq hnext
      refine ⟨hfall, fun hleader => ?_⟩
      rcases (hall _ hleader).mpr (Or.inr ⟨hends, rfl⟩) with hjump | ⟨-, heq⟩
      · exact hnext (hjump.2.2.symm.trans (hfall (hcond hjump)).2.2)
      · exact hnext heq

variable (hg : LaidOut disasm func leaders cfg)
include hg

/-- The next leader, or the end of the function. -/
theorem LaidOut.upTo_iff {i l n : Nat} (hl : leaders[i]? = some l) :
    UpTo disasm func.address func.end_addr l n ↔ n = leaders[i + 1]?.getD func.end_addr := by
  have hleader : Leader disasm func.address func.end_addr l := (hg.mem l).mp (List.mem_of_getElem? hl)
  unfold UpTo
  rw [and_iff_right hleader]
  cases hnext : leaders[i + 1]? with
  | none =>
      have hlast : ∀ m, Leader disasm func.address func.end_addr m → m ≤ l := fun m hm => by
        obtain ⟨j, hj⟩ := List.mem_iff_getElem?.mp ((hg.mem m).mpr hm)
        have hlen := List.getElem?_eq_none_iff.mp hnext
        have hlt := (List.getElem?_eq_some_iff.mp hj).1
        have hij := lt_of_sorted hg.sorted hl hj
        omega
      rw [Option.getD_none]
      constructor
      · rintro (⟨hn, hlt, -⟩ | ⟨hn, -⟩)
        · exact absurd (hlast n hn) (by omega)
        · exact hn
      · exact fun hn => Or.inr ⟨hn, hlast⟩
  | some m =>
      have hm : Leader disasm func.address func.end_addr m := (hg.mem m).mp (List.mem_of_getElem? hnext)
      have hlt : l < m := (lt_of_sorted hg.sorted hl hnext).mp (Nat.lt_succ_self i)
      have hleast : ∀ k, Leader disasm func.address func.end_addr k → l < k → m ≤ k := fun k hk hlk => by
        obtain ⟨j, hj⟩ := List.mem_iff_getElem?.mp ((hg.mem k).mpr hk)
        have hij := (lt_of_sorted hg.sorted hl hj).mpr hlk
        have hnot := lt_of_sorted hg.sorted hj hnext
        omega
      rw [Option.getD_some]
      constructor
      · rintro (⟨hn, hln, hall⟩ | ⟨-, hall⟩)
        · exact Nat.le_antisymm (hall m hm hlt) (hleast n hn hln)
        · exact absurd (hall m hm) (by omega)
      · rintro rfl
        exact Or.inl ⟨hm, hlt, hleast⟩

/-- A leader is the start of a block, and what is up to the next one is in it. -/
theorem LaidOut.block_of {l n : Nat} (h : UpTo disasm func.address func.end_addr l n) : ∃ (i : Nat) (b : E9BasicBlock), leaders[i]? = some l ∧
    cfg.blocks[i]? = some b ∧ b.start_addr = l ∧ n = leaders[i + 1]?.getD func.end_addr ∧
    Filled disasm n l b.insns b.end_addr := by
  obtain ⟨i, hi⟩ := List.mem_iff_getElem?.mp ((hg.mem l).mpr h.1)
  obtain ⟨b, hb, hstart, hfilled, -⟩ := hg.block hi
  have hn := (hg.upTo_iff hi).mp h
  exact ⟨i, b, hi, hb, hstart, hn, hn ▸ hfilled⟩

/-- A block starts at a leader. -/
theorem LaidOut.leader_of {i : Nat} {b : E9BasicBlock} (hb : cfg.blocks[i]? = some b) : ∃ n,
    leaders[i]? = some b.start_addr ∧ n = leaders[i + 1]?.getD func.end_addr ∧
    UpTo disasm func.address func.end_addr b.start_addr n ∧ Filled disasm n b.start_addr b.insns b.end_addr := by
  have hlt := (List.getElem?_eq_some_iff.mp hb).1
  rw [hg.length] at hlt
  obtain ⟨c, hc, hstart, hfilled, -⟩ := hg.block (List.getElem?_eq_getElem hlt)
  obtain rfl := Option.some.inj (hb.symm.trans hc)
  have hi : leaders[i]? = some b.start_addr := (List.getElem?_eq_getElem hlt).trans (congrArg some hstart.symm)
  exact ⟨_, hi, rfl, (hg.upTo_iff hi).mpr rfl, hstart ▸ hfilled⟩

theorem LaidOut.distinct {i j : Nat} {b c : E9BasicBlock} (hb : cfg.blocks[i]? = some b) (hc : cfg.blocks[j]? = some c)
    (hstart : b.start_addr = c.start_addr) : i = j := by
  obtain ⟨-, hi, -⟩ := hg.leader_of hb
  obtain ⟨-, hj, -⟩ := hg.leader_of hc
  exact eq_of_sorted hg.sorted hi (hstart ▸ hj)

/-- A leader with one behind it ends there. -/
theorem LaidOut.next_of {l n : Nat} (hupto : UpTo disasm func.address func.end_addr l n)
    (hn : Leader disasm func.address func.end_addr n) (hlt : l < n) :
    ∃ (i : Nat) (b c : E9BasicBlock), cfg.blocks[i]? = some b ∧ cfg.blocks[i + 1]? = some c ∧ b.start_addr = l ∧
      c.start_addr = n ∧ leaders[i]? = some l ∧ leaders[i + 1]? = some n ∧ Filled disasm n l b.insns b.end_addr := by
  obtain ⟨i, b, hi, hb, hstart, hget, hfilled⟩ := hg.block_of hupto
  have hnext : leaders[i + 1]? = some n := by
    cases hcase : leaders[i + 1]? with
    | some m =>
        rw [hcase, Option.getD_some] at hget
        rw [hget]
    | none =>
        obtain ⟨j, hj⟩ := List.mem_iff_getElem?.mp ((hg.mem n).mpr hn)
        have hlen := List.getElem?_eq_none_iff.mp hcase
        have hjlt := (List.getElem?_eq_some_iff.mp hj).1
        have hij := (lt_of_sorted hg.sorted hi hj).mpr hlt
        omega
  obtain ⟨c, hc, hstart', -⟩ := hg.block hnext
  exact ⟨i, b, c, hb, hc, hstart, hstart', hi, hnext, hfilled⟩

/-- The predecessors are the inverse of the successors. -/
theorem LaidOut.predecessors {i j : Nat} {b c : E9BasicBlock} (hb : cfg.blocks[i]? = some b)
    (hc : cfg.blocks[j]? = some c) : c.predecessors.count i = b.successors.count j := by
  obtain ⟨-, hj, -⟩ := hg.leader_of hc
  obtain ⟨c', hc', -, -, -, hpreds⟩ := hg.block hj
  obtain rfl := Option.some.inj (hc.symm.trans hc')
  exact hpreds hb

/-- A leader in the function covers itself. -/
theorem LaidOut.covered_leader {l : Nat} {insn : Insn} (hl : Leader disasm func.address func.end_addr l)
    (hlt : l < func.end_addr) (hinsn : disasm l = some insn) : LedTo disasm func.address func.end_addr l := by
  obtain ⟨i, hi⟩ := List.mem_iff_getElem?.mp ((hg.mem l).mpr hl)
  have hupto := (hg.upTo_iff hi).mpr rfl
  refine ⟨l, _, hupto, Run.here ?_ hinsn⟩
  rcases hupto.2 with ⟨-, hless, -⟩ | ⟨heq, -⟩
  · exact hless
  · exact Nat.lt_of_lt_of_eq hlt heq.symm

variable (hd : Decodes disasm func)
include hd

/-- What an address decodes to is in a block where the address is covered. -/
theorem LaidOut.covered_iff {x : Nat} {insn : Insn} (hinsn : disasm x = some insn) :
    LedTo disasm func.address func.end_addr x ↔
      ∃ (i : Nat) (b : E9BasicBlock), cfg.blocks[i]? = some b ∧ insn ∈ b.insns := by
  constructor
  · rintro ⟨l, n, hupto, hrun⟩
    obtain ⟨i, b, -, hb, -, -, hfilled⟩ := hg.block_of hupto
    exact ⟨i, b, hb, (hfilled.mem insn).mpr ⟨x, hrun, hinsn⟩⟩
  · rintro ⟨i, b, hb, hmem⟩
    obtain ⟨n, -, -, hupto, hfilled⟩ := hg.leader_of hb
    obtain ⟨y, hrun, hother⟩ := (hfilled.mem insn).mp hmem
    obtain rfl : y = x := (hd.address hother).symm.trans (hd.address hinsn)
    exact ⟨_, n, hupto, hrun⟩

/-- No instruction is in two blocks. -/
theorem LaidOut.held_once {i j : Nat} {b c : E9BasicBlock} {insn : Insn} (hb : cfg.blocks[i]? = some b)
    (hc : cfg.blocks[j]? = some c) (hi : insn ∈ b.insns) (hj : insn ∈ c.insns) : i = j := by
  have hnot : ∀ {i j : Nat} {b c : E9BasicBlock}, cfg.blocks[i]? = some b → cfg.blocks[j]? = some c → insn ∈ b.insns →
      insn ∈ c.insns → ¬i < j := by
    intro i j b c hb hc hib hjc hlt
    obtain ⟨n, hi, hn, hupto, hfilled⟩ := hg.leader_of hb
    obtain ⟨m, hj, -, -, hfilled'⟩ := hg.leader_of hc
    obtain ⟨x, hrun, hinsn⟩ := (hfilled.mem insn).mp hib
    obtain ⟨y, hrun', hinsn'⟩ := (hfilled'.mem insn).mp hjc
    obtain rfl : y = x := (hd.address hinsn').symm.trans (hd.address hinsn)
    have hbelow := (hrun.between hd).2.1
    have habove := (hrun'.between hd).1
    have hbc : b.start_addr < c.start_addr := (lt_of_sorted hg.sorted hi hj).mp hlt
    rcases hupto.2 with ⟨-, -, hleast⟩ | ⟨-, hlast⟩
    · have hle := hleast c.start_addr ((hg.mem _).mp (List.mem_of_getElem? hj)) hbc
      omega
    · have hle := hlast c.start_addr ((hg.mem _).mp (List.mem_of_getElem? hj))
      omega
  have hij := hnot hb hc hi hj
  have hji := hnot hc hb hj hi
  omega

/-- The ranges are disjoint exactly if no return or jump reaches over the next leader. -/
theorem LaidOut.disjoint_iff :
    (∀ {i j a : Nat} {b c : E9BasicBlock}, cfg.blocks[i]? = some b → cfg.blocks[j]? = some c → b.start_addr ≤ a →
      a < b.end_addr → c.start_addr ≤ a → a < c.end_addr → i = j) ↔
    ∀ {l n x : Nat} {insn : Insn}, UpTo disasm func.address func.end_addr l n → Leader disasm func.address func.end_addr n →
      Run disasm n l x → disasm x = some insn → insn.Ends → x + insn.size ≤ n := by
  constructor
  · intro hdisjoint l n x insn hupto hn hrun hinsn hends
    obtain ⟨hlx, hxn, -⟩ := hrun.between hd
    obtain ⟨i, b, c, hb, hc, hstart, hstart', -, hnext, hfilled⟩ := hg.next_of hupto hn (by omega)
    have hfin := hfilled.ends hd hrun hinsn hends
    by_contra hover
    have hbelow : n < c.end_addr := by
      obtain ⟨m, -, hm, hupto', hfilled'⟩ := hg.leader_of hc
      rw [hstart'] at hupto' hfilled'
      rcases hfilled'.fin with ⟨y, other, hy, hother, -, hend⟩ | ⟨-, hend⟩
      · have hy := hy.between hd
        have hsize := hd.size hother
        omega
      · rcases hupto'.2 with ⟨-, hlt, -⟩ | ⟨hm, -⟩
        · omega
        · have hl := hupto.1.range
          have hrange := hn.range
          omega
    have hsame := hdisjoint hb hc (show b.start_addr ≤ n by omega) (by omega) (by omega) hbelow
    omega
  · intro hover
    have hnot : ∀ {i j a : Nat} {b c : E9BasicBlock}, cfg.blocks[i]? = some b → cfg.blocks[j]? = some c →
        a < b.end_addr → c.start_addr ≤ a → ¬i < j := by
      intro i j a b c hb hc hab hca hlt
      obtain ⟨n, hi, hn, hupto, hfilled⟩ := hg.leader_of hb
      obtain ⟨-, hj, -⟩ := hg.leader_of hc
      have hbc : b.start_addr < c.start_addr := (lt_of_sorted hg.sorted hi hj).mp hlt
      have hc' := (hg.mem _).mp (List.mem_of_getElem? hj)
      rcases hupto.2 with ⟨hleader, -, hleast⟩ | ⟨-, hlast⟩
      · have hle := hleast _ hc' hbc
        rcases hfilled.fin with ⟨y, other, hy, hother, hends, hend⟩ | ⟨-, hend⟩
        · have hlimit := hover hupto hleader hy hother hends
          omega
        · omega
      · have hle := hlast _ hc'
        omega
    intro i j a b c hb hc hba hab hca hac
    have hij := hnot hb hc hab hca
    have hji := hnot hc hb hac hba
    omega

/-- Each reached instruction is in one block exactly if what is jumped to or fallen to over a leader is covered. -/
theorem LaidOut.held_iff :
    (∀ {x : Nat} {insn : Insn}, Reached disasm func.address func.end_addr x → disasm x = some insn →
      ∃! i : Nat, ∃ b, cfg.blocks[i]? = some b ∧ insn ∈ b.insns) ↔
    (∀ {x target : Nat} {insn : Insn}, Reached disasm func.address func.end_addr x → disasm x = some insn →
      insn.Jumps target → func.address ≤ target → target < func.end_addr → (disasm target).isSome →
      LedTo disasm func.address func.end_addr target) ∧
    ∀ {x m : Nat} {insn : Insn}, Reached disasm func.address func.end_addr x → disasm x = some insn → ¬insn.Ends →
      x + insn.size < func.end_addr → Leader disasm func.address func.end_addr m → x < m → m < x + insn.size →
      (disasm (x + insn.size)).isSome → LedTo disasm func.address func.end_addr (x + insn.size) := by
  have hcovered : ∀ {x : Nat} {insn : Insn}, disasm x = some insn →
      ((∃! i : Nat, ∃ b, cfg.blocks[i]? = some b ∧ insn ∈ b.insns) ↔ LedTo disasm func.address func.end_addr x) := by
    intro x insn hinsn
    rw [hg.covered_iff hd hinsn]
    constructor
    · rintro ⟨i, ⟨b, hb⟩, -⟩
      exact ⟨i, b, hb⟩
    · rintro ⟨i, b, hb, hmem⟩
      exact ⟨i, ⟨b, hb, hmem⟩, fun j ⟨c, hc, hmem'⟩ => hg.held_once hd hc hb hmem' hmem⟩
  constructor
  · intro hheld
    have hreach : ∀ {x : Nat}, Reached disasm func.address func.end_addr x → (disasm x).isSome →
        LedTo disasm func.address func.end_addr x := fun hx hsome => by
      obtain ⟨insn, hinsn⟩ := Option.isSome_iff_exists.mp hsome
      exact (hcovered hinsn).mp (hheld hx hinsn)
    exact ⟨fun hx hinsn hjump hlow hhigh => hreach (Reached.jump hx hinsn hjump hlow hhigh),
      fun hx hinsn hends hlt _ _ _ => hreach (Reached.fall hx hinsn hends hlt)⟩
  · rintro ⟨hjumps, hskips⟩ x insn hx hinsn
    refine (hcovered hinsn).mpr ?_
    clear hcovered
    induction hx generalizing insn with
    | entry hlt => exact hg.covered_leader (Or.inl rfl) hlt hinsn
    | @fall x prev hx hprev hends hlt ih =>
        obtain ⟨l, n, hupto, hrun⟩ := ih hprev
        have hxn := (hrun.between hd).2.1
        by_cases hin : x + prev.size < n
        · exact ⟨l, n, hupto, hrun.fall hprev hends hin hinsn⟩
        · rcases hupto.2 with ⟨hleader, -⟩ | ⟨rfl, -⟩
          · by_cases hover : n < x + prev.size
            · exact hskips hx hprev hends hlt hleader hxn hover (Option.isSome_iff_exists.mpr ⟨_, hinsn⟩)
            · obtain rfl : n = x + prev.size := by omega
              exact hg.covered_leader hleader hlt hinsn
          · exact absurd hlt hin
    | jump hx hprev hjump hlow hhigh _ =>
        exact hjumps hx hprev hjump hlow hhigh (Option.isSome_iff_exists.mpr ⟨_, hinsn⟩)

/-- The successors are where control passes to exactly if each fall-through has the edge for it. -/
theorem LaidOut.successors_iff :
    (∀ {i j : Nat} {b c : E9BasicBlock}, cfg.blocks[i]? = some b → cfg.blocks[j]? = some c →
      (j ∈ b.successors ↔ ∃ last, b.insns.getLast? = some last ∧ last.Transfers c.start_addr)) ↔
    ∀ {l n x : Nat} {insn : Insn}, UpTo disasm func.address func.end_addr l n → Leader disasm func.address func.end_addr n →
      Run disasm n l x → disasm x = some insn → ¬insn.Ends → Stops disasm n x insn →
      FallsRight disasm func.address func.end_addr n x insn := by
  -- the edges of a block, by its leader and that of the successor
  have hedges : ∀ {i j m : Nat} {b : E9BasicBlock} {last : Insn}, cfg.blocks[i]? = some b → leaders[j]? = some m →
      b.insns.getLast? = some last → (j ∈ b.successors ↔ last.Jumps m ∨ last.HasFall ∧ j = i + 1) := by
    intro i j m b last hb hj hlast
    obtain ⟨n, hi, -⟩ := hg.leader_of hb
    obtain ⟨b', hb', -, -, hsucc, -⟩ := hg.block hi
    obtain rfl := Option.some.inj (hb.symm.trans hb')
    rw [hsucc hj, hlast]
    simp only [Option.some.injEq, exists_eq_left']
  constructor
  · intro hsucc l n x insn hupto hn hrun hinsn hends hstops
    obtain ⟨hlx, hxn, -⟩ := hrun.between hd
    obtain ⟨i, b, c, hb, hc, rfl, rfl, hi, hnext, hfilled⟩ := hg.next_of hupto hn (by omega)
    have hlast := (hfilled.last insn).mpr ⟨x, hrun, hinsn, hstops⟩
    refine (fallsRight_iff hd hinsn hends hn).mpr fun m hm => ?_
    obtain ⟨j, hj⟩ := List.mem_iff_getElem?.mp ((hg.mem m).mpr hm)
    obtain ⟨d, hdj, rfl, -⟩ := hg.block hj
    have hplace : j = i + 1 ↔ d.start_addr = c.start_addr := by
      constructor
      · rintro rfl
        exact Option.some.inj (hj.symm.trans hnext)
      · exact fun heq => eq_of_sorted hg.sorted (heq ▸ hj) hnext
    rw [← hplace, ← hedges hb hj hlast, hsucc hb hdj, hlast]
    simp only [Option.some.injEq, exists_eq_left']
  · intro hfalls i j b c hb hc
    obtain ⟨n, hi, hget, hupto, hfilled⟩ := hg.leader_of hb
    obtain ⟨-, hj, -⟩ := hg.leader_of hc
    have hm := (hg.mem _).mp (List.mem_of_getElem? hj)
    cases hlast : b.insns.getLast? with
    | none =>
        obtain ⟨b', hb', -, -, hsucc, -⟩ := hg.block hi
        obtain rfl := Option.some.inj (hb.symm.trans hb')
        rw [hsucc hj, hlast]
        simp
    | some last =>
        obtain ⟨x, hrun, hinsn, hstops⟩ := (hfilled.last last).mp hlast
        rw [hedges hb hj hlast]
        simp only [Option.some.injEq, exists_eq_left']
        by_cases hends : last.Ends
        · have hnofall : ¬last.HasFall := by
            rcases hends with h | h <;> simp [Insn.HasFall, h]
          unfold Insn.Transfers
          rw [or_iff_left fun h => hnofall h.1, or_iff_left fun h => h.1 hends]
        · rcases hupto.2 with ⟨hn, hlt, -⟩ | ⟨hn, hall⟩
          · have hright := (fallsRight_iff hd hinsn hends hn).mp (hfalls hupto hn hrun hinsn hends hstops) _ hm
            obtain ⟨i', -, -, -, -, -, -, hi', hnext, -⟩ := hg.next_of hupto hn hlt
            obtain rfl := eq_of_sorted hg.sorted hi hi'
            have hplace : j = i + 1 ↔ c.start_addr = n := by
              constructor
              · rintro rfl
                exact Option.some.inj (hj.symm.trans hnext)
              · exact fun heq => eq_of_sorted hg.sorted (heq ▸ hj) hnext
            rw [hplace]
            exact hright
          · have hlast : c.start_addr ≤ b.start_addr := hall _ hm
            have hxl := (hrun.between hd).1
            have hsize := hd.size hinsn
            unfold Insn.Transfers
            rw [hd.address hinsn, or_iff_left, or_iff_left]
            · exact fun h => absurd h.2 (by omega)
            · rintro ⟨-, rfl⟩
              have hless := (lt_of_sorted hg.sorted hi hj).mp (Nat.lt_succ_self i)
              omega

/-- A graph that is laid out is exact under the condition only. -/
theorem LaidOut.exact_iff : cfg.Exact disasm func ↔ FollowsFlow disasm func.address func.end_addr := by
  constructor
  · intro h
    obtain ⟨hjumps, hskips⟩ := (hg.held_iff hd).mp h.held
    exact ⟨(hg.disjoint_iff hd).mp h.disjoint, hjumps, hskips, (hg.successors_iff hd).mp h.successors⟩
  · intro h
    exact ⟨hg.distinct, (hg.disjoint_iff hd).mpr h.ends, (hg.held_iff hd).mpr ⟨h.jumps, h.skips⟩,
      (hg.successors_iff hd).mpr h.falls, hg.predecessors⟩

end

/-- The graph is always built. Below the limit of leaders it is exact if and only if what reachable code jumps to is
covered by the leaders, nothing reaches over one, and what falls from a block has a category with an edge. -/
theorem cfg_exact_iff {func : E9Function} (hd : Decodes disasm func) {fuel : Nat}
    (hfuel : func.end_addr < fuel + func.address) (hpos : 0 < fuel) :
    ∃ cfg, e9_cfg_build disasm fuel func = some cfg ∧ (cfg.blocks.length < MAX_BLOCKS - 2 →
      (cfg.Exact disasm func ↔ FollowsFlow disasm func.address func.end_addr)) := by
  obtain ⟨cfg, leaders, hcfg, hlaid⟩ := e9_cfg_build_spec hd hfuel hpos
  exact ⟨cfg, hcfg, fun hlimit => (hlaid hlimit).exact_iff hd⟩

/-! ### Functions without overlapping instructions -/

/-- No leader is inside an instruction, and what is fallen to decodes. -/
structure AlignedSweep (disasm : Nat → Option Insn) (start fin : Nat) : Prop where
  inside : ∀ {x m : Nat} {insn : Insn}, Reached disasm start fin x ∨ LedTo disasm start fin x → disasm x = some insn →
    Leader disasm start fin m → x < m → x + insn.size ≤ m
  behind : ∀ {x : Nat} {insn : Insn}, LedTo disasm start fin x → disasm x = some insn → ¬insn.Ends →
    x + insn.size < fin → (disasm (x + insn.size)).isSome

/-- There the condition is one on the jumps and one on the categories in front of leaders. -/
theorem followed_iff {func : E9Function} (hd : Decodes disasm func)
    (ha : AlignedSweep disasm func.address func.end_addr) :
    FollowsFlow disasm func.address func.end_addr ↔
    (∀ {x target : Nat} {insn : Insn}, Reached disasm func.address func.end_addr x → disasm x = some insn →
      insn.Jumps target → func.address ≤ target → target < func.end_addr → (disasm target).isSome →
      LedTo disasm func.address func.end_addr target) ∧
    ∀ {x : Nat} {insn : Insn}, LedTo disasm func.address func.end_addr x → disasm x = some insn → ¬insn.Ends →
      Leader disasm func.address func.end_addr (x + insn.size) → insn.HasFall := by
  constructor
  · refine fun h => ⟨h.jumps, fun {x insn} hx hinsn hends hleader => ?_⟩
    obtain ⟨l, n, hupto, hrun⟩ := hx
    obtain ⟨hlx, hxn, -⟩ := hrun.between hd
    have hsize := hd.size hinsn
    rcases hupto.2 with ⟨hn, -, hleast⟩ | ⟨-, hlast⟩
    · have hle := hleast _ hleader (by omega)
      have hover := ha.inside (Or.inr ⟨l, n, hupto, hrun⟩) hinsn hn hxn
      have hright := h.falls hupto hn hrun hinsn hends (Or.inr (Or.inl hle))
      unfold FallsRight at hright
      rwa [if_pos (Nat.le_antisymm hover hle)] at hright
    · have hle := hlast _ hleader
      omega
  · rintro ⟨hjumps, hfalls⟩
    refine ⟨fun hupto hn hrun hinsn _ => ?_, hjumps, fun hx hinsn _ _ hm hlow hhigh _ => ?_,
      fun {l n x insn} hupto hn hrun hinsn hends hstops => ?_⟩
    · exact ha.inside (Or.inr ⟨_, _, hupto, hrun⟩) hinsn hn (hrun.between hd).2.1
    · exact absurd (ha.inside (Or.inl hx) hinsn hm hlow) (by omega)
    · obtain ⟨hlx, hxn, -⟩ := hrun.between hd
      have hcovered : LedTo disasm func.address func.end_addr x := ⟨l, n, hupto, hrun⟩
      have hover := ha.inside (Or.inr hcovered) hinsn hn hxn
      have heq : x + insn.size = n := by
        rcases hstops with h | h | h
        · exact absurd h hends
        · omega
        · have hfin : n < func.end_addr := by
            have hl := hupto.1.range
            have hrange := hn.range
            omega
          by_contra hne
          have hsome := ha.behind hcovered hinsn hends (by omega)
          rw [h] at hsome
          cases hsome
      unfold FallsRight
      rw [if_pos heq]
      exact hfalls hcovered hinsn hends (heq ▸ hn)

/-! ### With the disassembler -/

/-- The instruction at an address of a binary, where there is one. -/
def disassembled (d : Reader.Block) (bin : E9Binary) (addr : Nat) : Option Insn :=
  (e9_disasm_instruction d bin addr).toOption.join

theorem disassembled_decoded {d : Reader.Block} {bin : E9Binary} {x : Nat} {insn : Insn}
    (hinsn : disassembled d bin x = some insn) :
    ∃ size, 0 < size ∧ size ≤ MAX_INSN_SIZE ∧ disasmOffset bin x + size ≤ d.size ∧ insn.DecodedAt x size := by
  unfold disassembled at hinsn
  cases hread : e9_disasm_instruction d bin x with
  | error e =>
      rw [hread] at hinsn
      cases hinsn
  | ok r =>
      rw [hread] at hinsn
      exact e9_disasm_instruction_decoded (hread.trans (congrArg Except.ok hinsn))

/-- The disassembler decodes as is asked for, but at the end of the address space. -/
theorem disassembled_decodes (d : Reader.Block) (bin : E9Binary) {func : E9Function}
    (h : func.end_addr + MAX_INSN_SIZE ≤ 2 ^ 64) : Decodes (disassembled d bin) func := by
  refine ⟨fun hinsn => ?_, fun hinsn => ?_, fun _ hlt hinsn => ?_⟩
  all_goals obtain ⟨size, hpos, hmax, -, hat⟩ := disassembled_decoded hinsn
  · exact hat.address
  · exact hat.size ▸ hpos
  · have hsize := hat.size
    omega

/-- The code is decoded instruction by instruction up to the end. -/
inductive Consecutive (disasm : Nat → Option Insn) (fin : Nat) : Nat → Prop where
  | done : Consecutive disasm fin fin
  | next {x : Nat} {insn : Insn} : disasm x = some insn → Consecutive disasm fin (x + insn.size) → Consecutive disasm fin x

def x64Binary : E9Binary := { E9Binary.zero with arch := .X86_64 }

/-- `nop`, a loop `jne .` and `ret`. -/
def nopLoop : Reader.Block := ⟨[0x90, 0x75, 0xFE, 0xC3], by decide⟩

def nopLoopFunction : E9Function := ⟨none, 0, 4, 4, none, none⟩

theorem nopLoop_decodes : Decodes (disassembled nopLoop x64Binary) nopLoopFunction :=
  disassembled_decodes nopLoop x64Binary (by decide)

theorem nopLoop_graph : ∃ cfg, e9_cfg_build (disassembled nopLoop x64Binary) 5 nopLoopFunction = some cfg ∧
    (cfg.blocks.length < MAX_BLOCKS - 2 → (cfg.Exact (disassembled nopLoop x64Binary) nopLoopFunction ↔
      FollowsFlow (disassembled nopLoop x64Binary) 0 4)) :=
  cfg_exact_iff nopLoop_decodes (by decide) (by decide)

def nopLoopInsns : List Insn :=
  [⟨0, 1, .NOP, 0, false, false, false, false⟩, ⟨1, 2, .COND_JUMP, 1, false, true, false, false⟩,
    ⟨3, 1, .RET, 0, false, false, false, false⟩]

def nopLoopGraph : E9CFG :=
  ⟨[⟨0, 1, nopLoopInsns.take 1, [], []⟩, ⟨1, 3, (nopLoopInsns.drop 1).take 1, [1], [2, 1]⟩,
    ⟨3, 4, nopLoopInsns.drop 2, [1], []⟩], some 0, [2], 1⟩

theorem nopLoop_built : e9_cfg_build (disassembled nopLoop x64Binary) 5 nopLoopFunction = some nopLoopGraph := by decide

theorem nopLoop_consecutive : Consecutive (disassembled nopLoop x64Binary) 4 0 :=
  .next (show disassembled nopLoop x64Binary 0 = nopLoopInsns[0]? by decide)
    (.next (show disassembled nopLoop x64Binary 1 = nopLoopInsns[1]? by decide)
      (.next (show disassembled nopLoop x64Binary 3 = nopLoopInsns[2]? by decide) .done))

/-- The `nop` falls through to the loop, and there is no edge for it. -/
theorem nop_without_edge : ¬∀ (disasm : Nat → Option Insn) (func : E9Function) (fuel : Nat) (cfg : E9CFG),
    Decodes disasm func → Consecutive disasm func.end_addr func.address → e9_cfg_build disasm fuel func = some cfg →
    cfg.blocks.length < MAX_BLOCKS - 2 → cfg.Exact disasm func := by
  intro h
  have hexact := h _ _ _ _ nopLoop_decodes nopLoop_consecutive nopLoop_built (by decide)
  have hsucc := @E9CFG.Exact.successors _ _ _ hexact 0 1 _ _ rfl rfl
  have hends : ¬(nopLoopInsns[0]).Ends := by rintro (hret | hjump) <;> contradiction
  have hmem : 1 ∈ ([] : List Nat) := hsucc.mpr ⟨_, rfl, Or.inr ⟨hends, rfl⟩⟩
  cases hmem

end E9Patch
