import Mathlib.Data.List.Nodup
import E9Patch.TrapTable

/-!
The SIGILL handler of the loader. It looks up the faulting address in the table of traps by a binary search
whose upper bound is one too large, and reads the entry it found before it asks whether it found one.
-/

namespace E9Patch
open Binary Fallible

/-- What the handler reads of the configuration. -/
structure TrapConfig where
  base : Int
  num_traps : Nat

/-- The configuration that `emitElf` writes; the number of traps is a `uint32_t`. -/
def Binary.trapConfig (B : Binary) (table : List e9_trap_s) : TrapConfig :=
  { base := B.options.option_loader_base, num_traps := table.length % 2 ^ 32 }

/-- Where the program goes on: at a trampoline, or by the default action. -/
inductive Dispatch where
  | trampoline (target : Int)
  | default
  deriving DecidableEq, Repr

/-- The search: the indices that it reads, and the one that it finds. -/
def trapSearch (traps : Int → e9_trap_s) (key : Int) : Nat → Int → Int → Option (List Int × Int)
  | 0, _, _ => none
  | fuel + 1, lo, hi =>
    if lo ≤ hi then
      let mid := (lo + hi) / 2
      if key < (traps mid).rip then
        (trapSearch traps key fuel lo (mid - 1)).map fun r => (mid :: r.1, r.2)
      else if key > (traps mid).rip then
        (trapSearch traps key fuel (mid + 1) hi).map fun r => (mid :: r.1, r.2)
      else some ([mid], mid)
    else some ([], -1)

/-- Signal handler. The result is what it reads of the table, and what it does; the interval of the search
shrinks with each round. -/
def e9handler (config : TrapConfig) (traps : Int → e9_trap_s) (elf_base rip : Int) :
    Option (List Int × Dispatch) :=
  let loader_base := elf_base + config.base
  let found := if elf_base ≤ rip ∧ rip ≤ loader_base then
      trapSearch traps (rip - elf_base) (config.num_traps + 2) 0 config.num_traps
    else some ([], -1)
  found.map fun r =>
    let trampoline := elf_base + (traps r.2).trampoline
    (r.1 ++ [r.2], if r.2 < 0 then .default else .trampoline trampoline)

/-- A SIGILL: the loader sets up the handler only if there are traps. -/
def sigill (config : TrapConfig) (traps : Int → e9_trap_s) (elf_base rip : Int) :
    Option (List Int × Dispatch) :=
  if config.num_traps > 0 then e9handler config traps elf_base rip else some ([], .default)

/-- The table is in memory. What lies around it may be anything. -/
def InMemory (table : List e9_trap_s) (traps : Int → e9_trap_s) : Prop :=
  ∀ i (hi : i < table.length), traps i = table[i]

/-- The dispatch is exact: it ends, only entries of the table are read, and the program goes on at the entry of
the allocation of the trapped instruction if there is one, and else by the default action. -/
def Dispatched (B : Binary) (config : TrapConfig) (traps : Int → e9_trap_s) (elf_base rip : Int) : Prop :=
  ∃ reads d, sigill config traps elf_base rip = some (reads, d) ∧
    (∀ i ∈ reads, 0 ≤ i ∧ i < config.num_traps) ∧
    (∀ A I, A ∈ B.Traps → (B.alloc A).I = some I → rip = elf_base + (B.Is I).addr →
      d = .trampoline (elf_base + B.entry A)) ∧
    ((∀ A I, A ∈ B.Traps → (B.alloc A).I = some I → rip ≠ elf_base + (B.Is I).addr) → d = .default)

/-- The handler is not set up and the address is not in the table, or it is in the range of the handler and
one of the entries that are counted. -/
def Dispatchable (config : TrapConfig) (table : List e9_trap_s) (elf_base rip : Int) : Prop :=
  (config.num_traps = 0 ∧ ∀ t ∈ table, rip ≠ elf_base + t.rip) ∨
    (elf_base ≤ rip ∧ rip ≤ elf_base + config.base ∧
      ∃ t ∈ table.take config.num_traps, rip = elf_base + t.rip)

instance (config : TrapConfig) (table : List e9_trap_s) (elf_base rip : Int) :
    Decidable (Dispatchable config table elf_base rip) := inferInstanceAs (Decidable (_ ∨ _))

/-! ### The search -/

section
variable {traps : Int → e9_trap_s} {key : Int}

/-- The search ends, and what it finds it has read and compared. -/
theorem trapSearch_total {fuel : Nat} {lo hi : Int} (hfuel : (hi + 1 - lo).toNat < fuel) :
    ∃ reads idx, trapSearch traps key fuel lo hi = some (reads, idx) ∧
      (idx = -1 ∨ (idx ∈ reads ∧ (traps idx).rip = key)) := by
  induction fuel generalizing lo hi with
  | zero => omega
  | succ fuel ih =>
      by_cases hle : lo ≤ hi
      · simp only [trapSearch, if_pos hle]
        split
        · obtain ⟨reads, idx, h, hidx⟩ := @ih lo ((lo + hi) / 2 - 1) (by omega)
          refine ⟨(lo + hi) / 2 :: reads, idx, by rw [h]; rfl, ?_⟩
          exact hidx.imp_right fun h => ⟨List.mem_cons_of_mem _ h.1, h.2⟩
        split
        · obtain ⟨reads, idx, h, hidx⟩ := @ih ((lo + hi) / 2 + 1) hi (by omega)
          refine ⟨(lo + hi) / 2 :: reads, idx, by rw [h]; rfl, ?_⟩
          exact hidx.imp_right fun h => ⟨List.mem_cons_of_mem _ h.1, h.2⟩
        · exact ⟨_, _, rfl, Or.inr ⟨List.mem_singleton_self _, by omega⟩⟩
      · exact ⟨[], -1, by rw [trapSearch, if_neg hle], Or.inl rfl⟩

/-- An entry whose key separates the entries of the table is found, and nothing else is read: the midpoint
is below the upper bound as long as the entry is. -/
theorem trapSearch_finds {n i : Int} (h0 : 0 ≤ i) (hn : i < n) (hkey : (traps i).rip = key)
    (hbelow : ∀ j, 0 ≤ j → j < i → (traps j).rip < key) (habove : ∀ j, i < j → j < n → key < (traps j).rip)
    {fuel : Nat} {lo hi : Int} (hfuel : (hi + 1 - lo).toNat < fuel) (hlo : 0 ≤ lo) (hlo' : lo ≤ i)
    (hhi : hi ≤ n) (hhi' : i ≤ hi) :
    ∃ reads, trapSearch traps key fuel lo hi = some (reads, i) ∧ ∀ j ∈ reads, 0 ≤ j ∧ j < n := by
  induction fuel generalizing lo hi with
  | zero => omega
  | succ fuel ih =>
      have hmid : 0 ≤ (lo + hi) / 2 ∧ (lo + hi) / 2 < n := by omega
      have hreads : ∀ {reads : List Int}, (∀ j ∈ reads, 0 ≤ j ∧ j < n) →
          ∀ j ∈ (lo + hi) / 2 :: reads, 0 ≤ j ∧ j < n := by
        intro reads h j hj
        rcases List.mem_cons.mp hj with rfl | hj
        · exact hmid
        · exact h j hj
      simp only [trapSearch, if_pos (show lo ≤ hi by omega)]
      rcases Int.lt_trichotomy ((lo + hi) / 2) i with hlt | heq | hgt
      · have := hbelow _ hmid.1 hlt
        rw [if_neg (by omega), if_pos (by omega)]
        obtain ⟨reads, h, hr⟩ := @ih ((lo + hi) / 2 + 1) hi (by omega) (by omega) (by omega) hhi hhi'
        exact ⟨_, by rw [h]; rfl, hreads hr⟩
      · rw [heq, if_neg (by omega), if_neg (by omega)]
        refine ⟨[i], rfl, fun j hj => ?_⟩
        obtain rfl := List.mem_singleton.mp hj
        exact ⟨h0, hn⟩
      · have := habove _ hgt hmid.2
        rw [if_pos (by omega)]
        obtain ⟨reads, h, hr⟩ := @ih lo ((lo + hi) / 2 - 1) (by omega) hlo hlo' (by omega) (by omega)
        exact ⟨_, by rw [h]; rfl, hreads hr⟩

end

/-! ### The handler -/

section
variable {config : TrapConfig} {traps : Int → e9_trap_s} {table : List e9_trap_s} {elf_base rip : Int}

/-- If the handler reads nothing but the table, the address was in its range and in the table. -/
theorem e9handler_reads {reads : List Int} {d : Dispatch} (hmem : InMemory table traps)
    (hcount : config.num_traps ≤ table.length) (h : e9handler config traps elf_base rip = some (reads, d))
    (hreads : ∀ i ∈ reads, 0 ≤ i ∧ i < config.num_traps) :
    elf_base ≤ rip ∧ rip ≤ elf_base + config.base ∧
      ∃ t ∈ table.take config.num_traps, rip = elf_base + t.rip := by
  unfold e9handler at h
  simp only at h
  obtain ⟨⟨rs, idx⟩, hfound, h⟩ := Option.map_eq_some_iff.mp h
  obtain ⟨rfl, -⟩ := Prod.mk.inj h
  -- the index that the search ends with is read in any case
  have hidx := hreads idx (by simp)
  split at hfound
  · rename_i hrange
    obtain ⟨rs', idx', hs, hcases⟩ := @trapSearch_total traps (rip - elf_base) (config.num_traps + 2) 0
      config.num_traps (by omega)
    rw [hs] at hfound
    obtain ⟨rfl, rfl⟩ := Prod.mk.inj (Option.some.inj hfound)
    refine ⟨hrange.1, hrange.2, ?_⟩
    rcases hcases with hneg | ⟨-, hkey⟩
    · omega
    · obtain ⟨i, rfl⟩ := Int.eq_ofNat_of_zero_le hidx.1
      have hi : i < config.num_traps := by omega
      rw [hmem i (by omega)] at hkey
      refine ⟨table[i], ?_, by omega⟩
      rw [List.mem_take_iff_getElem]
      exact ⟨i, by omega, rfl⟩
  · cases hfound
    omega

/-- An entry of an ascending table is found. -/
theorem e9handler_finds {t : e9_trap_s} (hmem : InMemory table traps)
    (hsorted : (table.map (·.rip)).Pairwise (· < ·)) (hcount : config.num_traps ≤ table.length)
    (hfrom : elf_base ≤ rip) (hto : rip ≤ elf_base + config.base)
    (ht : t ∈ table.take config.num_traps) (hrip : rip = elf_base + t.rip) :
    ∃ reads, e9handler config traps elf_base rip = some (reads, .trampoline (elf_base + t.trampoline)) ∧
      ∀ i ∈ reads, 0 ≤ i ∧ i < config.num_traps := by
  obtain ⟨i, hi, rfl⟩ := List.mem_iff_getElem.mp ht
  rw [List.pairwise_map, List.pairwise_iff_getElem] at hsorted
  have hread : ∀ j : Int, 0 ≤ j → j < config.num_traps →
      ∃ k, ∃ hk : k < table.length, j = k ∧ traps j = table[k] := by
    intro j hj hjn
    obtain ⟨k, rfl⟩ := Int.eq_ofNat_of_zero_le hj
    exact ⟨k, by omega, rfl, hmem k (by omega)⟩
  rw [List.length_take] at hi
  have hi' : i < config.num_traps ∧ i < table.length := by omega
  have hbelow : ∀ j : Int, 0 ≤ j → j < i → (traps j).rip < rip - elf_base := by
    intro j hj hji
    obtain ⟨k, hk, rfl, heq⟩ := hread j hj (by omega)
    have := hsorted k i hk hi'.2 (by omega)
    rw [List.getElem_take] at hrip
    rw [heq]
    omega
  have habove : ∀ j : Int, i < j → j < config.num_traps → rip - elf_base < (traps j).rip := by
    intro j hij hj
    obtain ⟨k, hk, rfl, heq⟩ := hread j (by omega) hj
    have := hsorted i k hi'.2 hk (by omega)
    rw [List.getElem_take] at hrip
    rw [heq]
    omega
  have hkey : (traps i).rip = rip - elf_base := by
    rw [hmem i hi'.2]
    rw [List.getElem_take] at hrip
    omega
  obtain ⟨reads, hs, hreads⟩ := @trapSearch_finds traps (rip - elf_base) config.num_traps i (by omega) (by omega)
    hkey hbelow habove (config.num_traps + 2) 0 config.num_traps (by omega) (by omega) (by omega) (by omega)
    (by omega)
  refine ⟨reads ++ [(i : Int)], ?_, fun j hj => ?_⟩
  · unfold e9handler
    simp only [if_pos (And.intro hfrom hto), hs, Option.map_some, hmem i hi'.2, List.getElem_take]
    rw [if_neg (by omega)]
  · rw [List.mem_append, List.mem_singleton] at hj
    rcases hj with hj | rfl
    · exact hreads j hj
    · omega

end

/-! ### The dispatch of an emitted table -/

/-- **SIGILL dispatch.** If the patch messages came in the reverse order of their addresses, as they must
without batch mode, the dispatch is exact for the addresses of the traps within the range of the handler, and
for no others: for these the handler reads the entry before the table. -/
theorem dispatch_exact_iff {file : File} {mode : Mode} {options : Options} {analysis : Option (Nat → Bool)}
    {B₀ B : Binary} {ms : List Message} {log : List Event} (h₀ : parseBinary file mode options analysis = .ok B₀)
    (h : emitLog B₀ ms = .ok (B, log))
    (horder : (B₀.options.option_batch = false ∧ KeepsStreaming ms) ∨ Descending B log) :
    ∃ table, B.emitTraps = .ok table ∧ ∀ traps elf_base rip, InMemory table traps →
      (Dispatched B (B.trapConfig table) traps elf_base rip ↔
        Dispatchable (B.trapConfig table) table elf_base rip) := by
  have hdesc : Descending B log := horder.elim (fun hs => streaming_descends h₀ hs.1 hs.2 h) id
  obtain ⟨table, htable, hentries, hsorted⟩ := emitTraps_ascends h₀ h
  refine ⟨table, htable, fun traps elf_base rip hmem => ?_⟩
  have hcount : (B.trapConfig table).num_traps ≤ table.length := Nat.mod_le _ _
  generalize B.trapConfig table = config at hcount
  constructor
  · rintro ⟨reads, d, hd, hreads, hfound, -⟩
    unfold sigill at hd
    split at hd
    · exact Or.inr (e9handler_reads hmem hcount hd hreads)
    · rename_i hnone
      refine Or.inl ⟨by omega, fun t ht hrip => ?_⟩
      obtain ⟨A, I, hA, hI, rfl⟩ := (hentries t).mp ht
      have := hfound A I hA hI hrip
      cases hd
      cases this
  · rintro (⟨hnone, habsent⟩ | ⟨hfrom, hto, t, ht, hrip⟩)
    · refine ⟨[], .default, by rw [sigill, if_neg (by omega)], fun i hi => (List.not_mem_nil hi).elim, ?_,
        fun _ => rfl⟩
      exact fun A I hA hI hrip => absurd hrip (habsent _ ((hentries _).mpr ⟨A, I, hA, hI, rfl⟩))
    · have hpos : config.num_traps > 0 := by
        obtain ⟨i, hi, -⟩ := List.mem_take_iff_getElem.mp ht
        omega
      obtain ⟨reads, hd, hreads⟩ := e9handler_finds hmem (hsorted hdesc) hcount hfrom hto ht hrip
      refine ⟨reads, _, by rw [sigill, if_pos hpos, hd], hreads, fun A I hA hI hripA => ?_, fun habsent => ?_⟩
      · -- an ascending table has one entry for an address
        have hmemA := (hentries _).mpr ⟨A, I, hA, hI, rfl⟩
        have hnodup : (table.map (·.rip)).Nodup := (hsorted hdesc).imp fun h => Int.ne_of_lt h
        have hsame : t.rip = (B.Is I).addr := by omega
        rw [List.inj_on_of_nodup_map hnodup (List.mem_of_mem_take ht) hmemA hsame]
      · obtain ⟨A, I, hA, hI, rfl⟩ := (hentries t).mp (List.mem_of_mem_take ht)
        exact absurd hrip (habsent A I hA hI)

/-! ### A sample table -/

/-- Traps only. -/
def trapOptions : Options :=
  { defaultOptions with
    option_tactic_B0 := true, option_tactic_B1 := false, option_tactic_B2 := false
    option_tactic_T0 := false, option_tactic_T1 := false, option_tactic_T2 := false
    option_tactic_T3 := false }

/-- The table, with zeroes behind it. -/
def tableMemory (table : List e9_trap_s) (i : Int) : e9_trap_s := table.getD i.toNat ⟨0, 0⟩

theorem tableMemory_holds (table : List e9_trap_s) : InMemory table (tableMemory table) := by
  intro i hi
  rw [tableMemory, Int.toNat_natCast, List.getD_eq_getElem?_getD, List.getElem?_eq_getElem hi, Option.getD_some]

/-- The sample with both of its patches by B0. -/
def trapSample : Except Fault (Binary × List e9_trap_s) := do
  let r ← streamResult sampleFile trapOptions sampleStream
  let table ← r.1.emitTraps
  .ok (r.1, table)

/-- The second trap of the sample is dispatched. -/
theorem sample_dispatched : ∃ B₀ B log table, parseBinary sampleFile .ELF_EXE trapOptions none = .ok B₀ ∧
    emitLog B₀ sampleStream = .ok (B, log) ∧ B.emitTraps = .ok table ∧
    Dispatched B (B.trapConfig table) (tableMemory table) 0 0x400004 := by
  obtain ⟨B₀, B, log, h₀, h, hr⟩ := streamResult_ok sampleFile trapOptions sampleStream (by decide +kernel)
  have hbatch : B₀.options.option_batch = false := by
    have hval : (parseBinary sampleFile .ELF_EXE trapOptions none).toOption.map (·.options.option_batch) =
      some false := by decide +kernel
    rw [h₀] at hval
    exact Option.some.inj hval
  have hstream : KeepsStreaming sampleStream := fun argv hm => by simp [sampleStream] at hm
  obtain ⟨table, htable, hiff⟩ := dispatch_exact_iff h₀ h (Or.inl ⟨hbatch, hstream⟩)
  have hcheck : trapSample.toOption.map (fun x => decide (Dispatchable (x.1.trapConfig x.2) x.2 0 0x400004)) =
    some true := by decide +kernel
  have hsample : trapSample = .ok (B, table) := bind_ok.mpr ⟨_, hr, bind_ok.mpr ⟨_, htable, rfl⟩⟩
  rw [hsample] at hcheck
  exact ⟨B₀, B, log, table, h₀, h, htable,
    (hiff _ _ _ (tableMemory_holds table)).mpr (of_decide_eq_true (Option.some.inj hcheck))⟩

/-- For an instruction that is not trapped, the handler of the sample reads the entry before the table. -/
theorem untrapped_misread : ∃ B₀ B log table, parseBinary sampleFile .ELF_EXE trapOptions none = .ok B₀ ∧
    emitLog B₀ sampleStream = .ok (B, log) ∧ B.emitTraps = .ok table ∧ InMemory table (tableMemory table) ∧
    ¬Dispatched B (B.trapConfig table) (tableMemory table) 0 0x400006 := by
  obtain ⟨B₀, B, log, h₀, h, hr⟩ := streamResult_ok sampleFile trapOptions sampleStream (by decide +kernel)
  obtain ⟨table, htable, -⟩ := emitTraps_ascends h₀ h
  have hread : trapSample.toOption.bind (fun x => (sigill (x.1.trapConfig x.2) (tableMemory x.2) 0 0x400006).map
    fun r => decide (-1 ∈ r.1)) = some true := by decide +kernel
  have hsample : trapSample = .ok (B, table) := bind_ok.mpr ⟨_, hr, bind_ok.mpr ⟨_, htable, rfl⟩⟩
  refine ⟨B₀, B, log, table, h₀, h, htable, tableMemory_holds table, ?_⟩
  rintro ⟨reads, d, hd, hreads, -⟩
  simp only [hsample, Except.toOption, Option.bind_some, hd, Option.map_some] at hread
  have := hreads (-1) (of_decide_eq_true (Option.some.inj hread))
  omega

end E9Patch
