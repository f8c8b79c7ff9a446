import E9Patch.PatchJump

/-!
The invariant of the backend's state. Instructions lie apart, in reverse order of arrival, and no byte of
an evicted one is open for patching. `Progress` is what every tactic does to the state, whether it
succeeds or fails: cells make their steps, of an instruction only flags change, and allocations stay.
-/

namespace E9Patch
open Bytes Binary Fallible

/-- No tactic can touch the instruction any more. -/
def Closed (B : Binary) (k : Nat) : Prop :=
  Protected (B.STATE k 0) ∧ ∀ i < (B.Is k).size, Dead (B.STATE k i)

structure WellFormed (B : Binary) : Prop where
  allocates : B.Allocates
  size : ∀ k < B.count, 1 ≤ (B.Is k).size ∧ (B.Is k).size ≤ 15
  offsets : ∀ j k, j < k → k < B.count → (B.Is k).offset + (B.Is k).size ≤ (B.Is j).offset
  addrs : ∀ j k, j < k → k < B.count → (B.Is k).addr + (B.Is k).size ≤ (B.Is j).addr
  zero : ∀ k, B.count ≤ k → (B.Is k).offset = 0
  known : ∀ k < B.count, ∀ i < (B.Is k).size, B.STATE k i ≠ STATE_UNKNOWN
  evicted : ∀ k < B.count, (B.Is k).is_evicted = true → Closed B k

/-- Of an instruction, at most the flags that patching sets differ. -/
def SameInstr (I I' : Instr) : Prop :=
  I' = { I with
    is_patched := I'.is_patched, is_evicted := I'.is_evicted, no_optimize := I'.no_optimize }

theorem SameInstr.refl (I : Instr) : SameInstr I I := rfl

theorem SameInstr.trans {I I' I'' : Instr} (h : SameInstr I I') (h' : SameInstr I' I'') :
    SameInstr I I'' := by
  unfold SameInstr at h h' ⊢
  rw [h', h]

theorem SameInstr.fields {I I' : Instr} (h : SameInstr I I') :
    I'.offset = I.offset ∧ I'.size = I.size ∧ I'.addr = I.addr := by
  rw [h]
  exact ⟨rfl, rfl, rfl⟩

structure Progress (B B' : Binary) : Prop where
  evolves : Evolves B B'
  instrs : ∀ k, SameInstr (B.Is k) (B'.Is k)
  keeps : KeepsAllocations B.allocator B'.allocator
  rest : B' = { B with
    bytes := B'.bytes, state := B'.state, Is := B'.Is, allocator := B'.allocator }

theorem Progress.trans {B B' B'' : Binary} (h : Progress B B') (h' : Progress B' B'') :
    Progress B B'' := by
  refine ⟨h.evolves.trans h'.evolves, fun k => (h.instrs k).trans (h'.instrs k),
    h.keeps.trans h'.keeps, ?_⟩
  have h1 := h'.rest
  rw [h.rest] at h1
  exact h1

theorem Progress.refl {B : Binary} (h : B.Allocates) : Progress B B := by
  obtain ⟨ids, hb⟩ := h
  exact ⟨.refl B, fun k => .refl _, .refl hb, rfl⟩

theorem Progress.count {B B' : Binary} (h : Progress B B') : B'.count = B.count := by rw [h.rest]

theorem Progress.allocates {B B' : Binary} (h : Progress B B') : B'.Allocates := h.keeps.balanced

theorem Unchanged.progress {B B' : Binary} (h : Unchanged B B') : Progress B B' := by
  obtain ⟨t, rfl, hs⟩ := h
  exact ⟨.refl _, fun k => .refl _, hs.keeps, rfl⟩

theorem Unchanged.Is {B B' : Binary} (h : Unchanged B B') : B'.Is = B.Is := by
  obtain ⟨t, rfl, -⟩ := h
  rfl

theorem Rewrites.progress {B B' : Binary} (h : Rewrites B B') (he : Evolves B B') (hB : B.Allocates) :
    Progress B B' := by
  obtain ⟨ids, hb⟩ := hB
  refine ⟨he, fun k => ?_, ?_, ?_⟩
  · rw [h.Is]
    exact .refl _
  · rw [h]
    exact .refl hb
  · rw [h]

theorem Allocated.cell {B B' : Binary} {A : Nat} {T : Trampoline} {I : Option Nat}
    (h : Allocated B B' A T I) (q : Nat) : B'.cell q = B.cell q := by
  rw [h.binary]
  rfl

theorem Allocated.progress {B B' : Binary} {A : Nat} {T : Trampoline} {I : Option Nat}
    (h : Allocated B B' A T I) : Progress B B' := by
  have hk := h.keeps
  rw [h.binary]
  exact ⟨.refl _, fun k => .refl _, hk, rfl⟩

/-- Setting flags of an instruction. -/
theorem progress_setInstr {B : Binary} {k : Nat} {I : Instr} (h : SameInstr (B.Is k) I)
    (hB : B.Allocates) : Progress B (B.setInstr k I) := by
  obtain ⟨ids, hb⟩ := hB
  refine ⟨.refl _, fun j => ?_, .refl hb, rfl⟩
  by_cases hj : j = k
  · subst hj
    simpa [setInstr] using h
  · simp only [setInstr, if_neg hj]
    exact .refl _

theorem newPatch_progress {B : Binary} (hB : B.Allocates) (I : Nat) (tactic : Tactic) (A : Option Nat) :
    Progress B (B.newPatch I tactic A).1 := progress_setInstr (by rfl) hB

theorem setNoOptimize_progress {B : Binary} (hB : B.Allocates) (J : Nat) (v : Bool) :
    Progress B (B.setNoOptimize J v) := progress_setInstr (by rfl) hB

/-! ### Instructions -/

theorem Progress.closed {B B' : Binary} (h : Progress B B') {k : Nat} (hc : Closed B k) :
    Closed B' k := by
  obtain ⟨ho, hs, -⟩ := (h.instrs k).fields
  unfold Closed STATE at hc ⊢
  rw [ho, hs]
  exact ⟨((h.evolves _).guarded hc.1).2, fun i hi => (h.evolves _).dead (hc.2 i hi)⟩

/-- Progress keeps the invariant, if it closes the instructions that it evicts. -/
theorem WellFormed.progress {B B' : Binary} (hw : WellFormed B) (h : Progress B B')
    (he : ∀ k < B.count, (B'.Is k).is_evicted = true → (B.Is k).is_evicted = true ∨ Closed B' k) :
    WellFormed B' := by
  have hf := fun k => (h.instrs k).fields
  have hc := h.count
  refine ⟨h.allocates, fun k hk => ?_, fun j k hjk hk => ?_, fun j k hjk hk => ?_, fun k hk => ?_,
    fun k hk i hi => ?_, fun k hk hev => ?_⟩
  · rw [(hf k).2.1]
    exact hw.size k (hc ▸ hk)
  · rw [(hf k).1, (hf k).2.1, (hf j).1]
    exact hw.offsets j k hjk (hc ▸ hk)
  · rw [(hf k).2.2, (hf k).2.1, (hf j).2.2]
    exact hw.addrs j k hjk (hc ▸ hk)
  · rw [(hf k).1]
    exact hw.zero k (hc ▸ hk)
  · rw [(hf k).2.1] at hi
    rw [STATE, (hf k).1]
    exact (h.evolves _).known (hw.known k (hc ▸ hk) i hi)
  · rcases he k (hc ▸ hk) hev with hold | hnew
    · exact h.closed (hw.evicted k (hc ▸ hk) hold)
    · exact hnew

theorem WellFormed.unchanged {B B' : Binary} (hw : WellFormed B) (h : Unchanged B B') :
    WellFormed B' :=
  hw.progress h.progress fun k _ hk => Or.inl (by rwa [h.Is] at hk)

theorem instrAt_some {B : Binary} (hw : WellFormed B) {k j : Nat} (h : B.instrAt k = some j) :
    j = k ∧ k < B.count := by
  unfold instrAt at h
  split at h
  · cases h
  · rename_i hne
    cases h
    exact ⟨rfl, Nat.lt_of_not_le fun hle => hne (hw.zero _ hle)⟩

theorem prev_some {B : Binary} (hw : WellFormed B) {k j : Nat} (h : B.prev k = some j) :
    j = k + 1 ∧ j < B.count := by
  obtain ⟨rfl, hlt⟩ := instrAt_some hw h
  exact ⟨rfl, hlt⟩

theorem next_some {B : Binary} (hw : WellFormed B) {k j : Nat} (h : B.next k = some j) :
    k = j + 1 ∧ j < B.count := by
  cases k with
  | zero => cases h
  | succ k =>
      obtain ⟨rfl, hlt⟩ := instrAt_some hw h
      exact ⟨rfl, hlt⟩

theorem pred_some {B : Binary} (hw : WellFormed B) {k j : Nat} (h : B.pred k = some j) :
    j = k + 1 ∧ j < B.count := prev_some hw (Option.filter_eq_some_iff.mp h).1

theorem succ_some {B : Binary} (hw : WellFormed B) {k j : Nat} (h : B.succ k = some j) :
    k = j + 1 ∧ j < B.count ∧ (B.Is k).offset + (B.Is k).size = (B.Is j).offset := by
  obtain ⟨h1, h2⟩ := Option.filter_eq_some_iff.mp h
  obtain ⟨h3, h4⟩ := next_some hw h1
  exact ⟨h3, h4, by simpa using h2⟩

/-- Neighbours stay neighbours. -/
theorem Progress.succ {B B' : Binary} (h : Progress B B') (k : Nat) : B'.succ k = B.succ k := by
  have hf := fun k => (h.instrs k).fields
  unfold Binary.succ
  have hnext : B'.next k = B.next k := by
    cases k with
    | zero => rfl
    | succ k => simp only [Binary.next, Binary.instrAt, (hf k).1]
  rw [hnext]
  congr 1
  funext j
  rw [(hf k).1, (hf k).2.1, (hf j).1]

theorem protected_dead {s : ByteState} (h : Protected s) : Dead s := by
  rcases s with ⟨k, l⟩
  revert h
  cases k <;> cases l <;> decide

theorem freed_dead {c : Cell} (h : c.2 ≠ STATE_UNKNOWN) : Dead (freed c).2 := by
  unfold freed
  split
  · exact dead_free
  · rename_i hn
    rw [not_or] at hn
    exact ⟨h, hn⟩

/-- An instruction that can be patched was not evicted. -/
theorem WellFormed.not_evicted {B : Binary} (hw : WellFormed B) {k : Nat} (hk : k < B.count)
    (h : ¬Protected (B.STATE k 0)) : (B.Is k).is_evicted = false := by
  by_contra hne
  exact h (hw.evicted k hk (by simpa using hne)).1

theorem WellFormed.not_evicted_of_canPatch {B : Binary} (hw : WellFormed B) {k : Nat}
    (hk : k < B.count) (h : B.canPatch k = true) : (B.Is k).is_evicted = false :=
  hw.not_evicted hk (not_protected_of_unused h).1

end E9Patch
