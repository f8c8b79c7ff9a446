import E9Patch.PatchRedirect

/-!
The tactics that evict other instructions (T2, T3 and T0), B0, and `patch` itself. Each is put together
from the outcomes of the tactics it tries; where it fails half-way, the patches so far are undone in the
reverse order.
-/

namespace E9Patch
open Bytes Binary Fallible

/-- A short jump to a jump in another instruction, to the entry of a live allocation for `I` and `T`. -/
def Hops (B : Binary) (I : Nat) (T : Trampoline) : Prop :=
  ∃ A J i, Live B.allocator A ∧ (B.alloc A).I = some I ∧ (B.alloc A).T = some T ∧
    B.PATCH I 0 = 0xEB ∧ Protected (B.STATE I 0) ∧ Protected (B.STATE I 1) ∧ i < (B.Is J).size ∧
    (B.Is I).addr + 2 + signed8 (B.PATCH I 1).toNat = (B.Is J).addr + (i : Nat) ∧
    Jumps B J i (B.entry A)

theorem Hops.progress {B B' : Binary} {I : Nat} {T : Trampoline} (h : Hops B I T)
    (hp : Progress B B') : Hops B' I T := by
  obtain ⟨A, J, i, hl, hI, hT, hop, h0, h1, hi, htarget, hj⟩ := h
  obtain ⟨hl', ha⟩ := hp.keeps.live hl
  obtain ⟨ho, -, haddr⟩ := (hp.instrs I).fields
  obtain ⟨hoJ, hsJ, haddrJ⟩ := (hp.instrs J).fields
  have halloc : B'.alloc A = B.alloc A := ha
  have hentry : B'.entry A = B.entry A := by rw [entry, entry, halloc]
  have g0 := (hp.evolves _).guarded h0
  have g1 := (hp.evolves _).guarded h1
  refine ⟨A, J, i, hl', by rw [halloc, hI], by rw [halloc, hT], ?_, ?_, ?_, by rwa [hsJ], ?_, ?_⟩
  · rw [PATCH, ho]
    exact g0.1.trans hop
  · rw [STATE, ho]
    exact g0.2
  · rw [STATE, ho]
    exact g1.2
  · rw [PATCH, ho, haddr, haddrJ, ← htarget]
    congr 3
    exact congrArg UInt8.toNat g1.1
  · rw [hentry]
    exact hj.evolves hp.evolves hoJ haddrJ

/-- How an instruction gets to its trampoline, by tactic. Batches and traps are not followed here. -/
def Reaches (B : Binary) (I : Nat) (T : Trampoline) : Tactic → Prop
  | .B1 | .B2 | .T1 => Redirects B I T
  | .T2 => Redirects B I T ∧ ∃ J, B.succ I = some J ∧ Redirects B J evicteeTrampoline
  | .T3 => 2 ≤ (B.Is I).size → Hops B I T
  | .B0 | .T0 => True

/-- Each instruction that is evicted now, and was not before, is closed and redirected. -/
def EvictsOnly (B B' : Binary) : Prop :=
  ∀ k < B.count, (B'.Is k).is_evicted = true →
    (B.Is k).is_evicted = true ∨ (Closed B' k ∧ Redirects B' k evicteeTrampoline)

structure Success (I : Nat) (T : Trampoline) (B B' : Binary) (Ps : List Patch) : Prop where
  progress : Progress B B'
  evicts : EvictsOnly B B'
  reaches : ∀ P ∈ Ps.head?, Reaches B' I T P.tactic

/-- What every tactic does: nothing at all if it fails. -/
def AllOrNothing (I : Nat) (T : Trampoline) (B : Binary) (r : Binary × List Patch) : Prop :=
  (r.2 = [] ∧ Unchanged B r.1) ∨ (r.2 ≠ [] ∧ Success I T B r.1 r.2)

theorem EvictsOnly.trans {B B' B'' : Binary} (h : EvictsOnly B B') (h' : EvictsOnly B' B'')
    (hp : Progress B B') (hp' : Progress B' B'') : EvictsOnly B B'' := by
  intro k hk hev
  rcases h' k (by rwa [hp.count]) hev with hev | hnew
  · rcases h k hk hev with hev | hnew
    · exact Or.inl hev
    · exact Or.inr ⟨hp'.closed hnew.1, hnew.2.progress hp'⟩
  · exact Or.inr hnew

theorem EvictsOnly.of_flags {B B' : Binary}
    (h : ∀ k, (B'.Is k).is_evicted = true → (B.Is k).is_evicted = true) : EvictsOnly B B' :=
  fun k _ hk => Or.inl (h k hk)

theorem Unchanged.evicts {B B' : Binary} (h : Unchanged B B') : EvictsOnly B B' :=
  .of_flags fun k hk => by rwa [h.Is] at hk

theorem WellFormed.evicts {B B' : Binary} (hw : WellFormed B) (hp : Progress B B')
    (he : EvictsOnly B B') : WellFormed B' :=
  hw.progress hp fun k hk hev => (he k hk hev).imp id (·.1)

theorem Redirected.evicts {B B' : Binary} {I : Nat} {T : Trampoline} {tactic : Tactic} {P : Patch}
    (h : Redirected I T tactic B B' P) : EvictsOnly B B' := by
  intro k _ hev
  by_cases hk : k = I
  · subst hk
    have hT := h.evicted hev
    exact Or.inr ⟨h.closed, hT ▸ h.redirects⟩
  · rw [h.others k hk] at hev
    exact Or.inl hev

theorem AllOrNothing.unchanged {B B' : Binary} {I : Nat} {T : Trampoline} (h : Unchanged B B') :
    AllOrNothing I T B (B', []) := Or.inl ⟨rfl, h⟩

/-- The tactics B1, B2 and T1 as outcomes. -/
theorem Attempt.allOrNothing {B : Binary} {I : Nat} {T : Trampoline} {tactic : Tactic}
    {r : Binary × List Patch} (h : Attempt I T tactic B r)
    (ht : ∀ {B'}, Redirects B' I T → Reaches B' I T tactic) : AllOrNothing I T B r := by
  rcases h with hnil | ⟨P, hP, hred⟩
  · exact Or.inl hnil
  · refine Or.inr ⟨by simp [hP], hred.progress, hred.evicts, fun Q hQ => ?_⟩
    obtain rfl : P = Q := by simpa [hP] using hQ
    rw [hred.tactic]
    exact ht hred.redirects

theorem AllOrNothing.orTry {B : Binary} {I : Nat} {T : Trampoline} {r r' : Binary × List Patch}
    {f : Binary → Except Fault (Binary × List Patch)} (h : AllOrNothing I T B r) (hr : orTry r f = .ok r')
    (hf : ∀ C, Unchanged B C → f C = .ok r' → AllOrNothing I T C r') : AllOrNothing I T B r' := by
  rcases h with ⟨hnil, hu⟩ | ⟨hne, hs⟩
  · simp only [Binary.orTry, hnil] at hr
    rcases hf r.1 hu hr with ⟨hnil', hu'⟩ | ⟨hne', hs'⟩
    · exact Or.inl ⟨hnil', hu.trans hu'⟩
    · exact Or.inr ⟨hne', hu.progress.trans hs'.progress,
        hu.evicts.trans hs'.evicts hu.progress hs'.progress, hs'.reaches⟩
  · unfold Binary.orTry at hr
    split at hr
    · rename_i hnil
      exact absurd hnil hne
    · cases hr
      exact Or.inr ⟨hne, hs⟩

section
variable {B : Binary} {I : Nat} {T : Trampoline} {r : Binary × List Patch}

theorem tactic_T2_spec (hw : WellFormed B) (hI : I < B.count) (h : tactic_T2 I T B = .ok r) :
    AllOrNothing I T B r := by
  unfold tactic_T2 at h
  split at h
  · cases h
    exact .unchanged (.refl hw.allocates)
  · split at h
    · cases h
      exact .unchanged (.refl hw.allocates)
    · rename_i J hJ
      split at h
      · cases h
        exact .unchanged (.refl hw.allocates)
      · obtain ⟨Q₁, hQ₁, h⟩ := bind_ok.mp h
        obtain ⟨Q, hQ, h⟩ := bind_ok.mp h
        rcases punned_spec hw (succ_some hw hJ).2.1 hQ₁ hQ with ⟨hnil, hu⟩ | ⟨PQ, hPQ, hred⟩
        · rw [hnil] at h
          cases h
          exact Or.inl ⟨hnil, hu⟩
        · simp only [hPQ, List.isEmpty_cons, Bool.false_eq_true, if_false] at h
          obtain ⟨P₁, hP₁, h⟩ := bind_ok.mp h
          obtain ⟨P, hP, h⟩ := bind_ok.mp h
          have hwQ := hw.evicts hred.progress hred.evicts
          have hIQ : I < Q.1.count := by rwa [hred.progress.count]
          rcases punned_spec hwQ hIQ hP₁ hP with ⟨hnil, hu⟩ | ⟨PP, hPP, hred'⟩
          · rw [hnil] at h
            cases h
            exact Or.inl ⟨rfl, hred.undoes.unchanged hu⟩
          · simp only [hPP, List.isEmpty_cons, Bool.false_eq_true, if_false] at h
            cases h
            refine Or.inr ⟨by simp [setNext], hred.progress.trans hred'.progress,
              hred.evicts.trans hred'.evicts hred.progress hred'.progress, fun R hR => ?_⟩
            obtain rfl : PP = R := by simpa [setNext] using hR
            rw [hred'.tactic]
            have hp := hred.progress.trans hred'.progress
            exact ⟨hred'.redirects, J, by rw [hp.succ, hJ], hred.redirects.progress hred'.progress⟩

end

/-! ### T3 -/

/-- A jump for `I` in another instruction `J`, to the entry of a live allocation for `T`. -/
structure PlacedJump (I J i : Nat) (T : Trampoline) (B B' : Binary) (A : Nat) : Prop where
  progress : Progress B B'
  evicts : EvictsOnly B B'
  live : Live B'.allocator A
  I : (B'.alloc A).I = some I
  T : (B'.alloc A).T = some T
  inside : i < (B.Is J).size
  jumps : Jumps B' J i (B'.entry A)

theorem PlacedJump.of_unchanged {B C E : Binary} {I J i A : Nat} {T : Trampoline}
    (h : PlacedJump I J i T C E A) (hu : Unchanged B C) : PlacedJump I J i T B E A :=
  ⟨hu.progress.trans h.progress, hu.evicts.trans h.evicts hu.progress h.progress, h.live, h.I, h.T,
    by rw [← hu.Is]; exact h.inside, h.jumps⟩

theorem setNoOptimize_Is (B : Binary) (J k : Nat) (v : Bool) :
    (B.setNoOptimize J v).Is k = if k = J then { B.Is J with no_optimize := v } else B.Is k := rfl

/-- Restoring the flag that was saved. -/
theorem setNoOptimize_restore (B : Binary) (J : Nat) (v : Bool) :
    (B.setNoOptimize J v).setNoOptimize J (B.Is J).no_optimize = B := by
  have hIs : ((B.setNoOptimize J v).setNoOptimize J (B.Is J).no_optimize).Is = B.Is := by
    funext k
    by_cases hk : k = J <;> simp [setNoOptimize_Is, hk]
  calc (B.setNoOptimize J v).setNoOptimize J (B.Is J).no_optimize
      = { B with Is := ((B.setNoOptimize J v).setNoOptimize J (B.Is J).no_optimize).Is } := rfl
    _ = B := by rw [hIs]

theorem setNoOptimize_self (B : Binary) (J : Nat) : B.setNoOptimize J (B.Is J).no_optimize = B := by
  have hIs : (B.setNoOptimize J (B.Is J).no_optimize).Is = B.Is := by
    funext k
    by_cases hk : k = J <;> simp [setNoOptimize_Is, hk]
  calc B.setNoOptimize J (B.Is J).no_optimize
      = { B with Is := (B.setNoOptimize J (B.Is J).no_optimize).Is } := rfl
    _ = B := by rw [hIs]

/-- `undo` leaves the flag alone. -/
theorem undo_setNoOptimize (B : Binary) (P : Patch) (v : Bool) :
    (B.setNoOptimize P.I v).undo [P] = (B.undo [P]).setNoOptimize P.I v := by
  have hIs : ((B.setNoOptimize P.I v).undo [P]).Is = ((B.undo [P]).setNoOptimize P.I v).Is := by
    funext k
    by_cases hk : k = P.I <;> simp [setNoOptimize, Binary.undo, undoPatch, setInstr, hk]
  have hoff : ((B.setNoOptimize P.I v).Is P.I).offset = (B.Is P.I).offset := by
    rw [setNoOptimize_Is, if_pos rfl]
  calc (B.setNoOptimize P.I v).undo [P]
      = { (B.undo [P]) with Is := ((B.setNoOptimize P.I v).undo [P]).Is } := by
        simp [setNoOptimize, Binary.undo, undoPatch, setInstr]
    _ = (B.undo [P]).setNoOptimize P.I v := by
        rw [hIs]
        rfl

theorem Unchanged.setNoOptimize {B C : Binary} (h : Unchanged B C) (J : Nat) (v : Bool) :
    Unchanged (B.setNoOptimize J v) (C.setNoOptimize J v) := by
  obtain ⟨t, rfl, hs⟩ := h
  exact ⟨t, rfl, hs⟩

/-- A jump that was placed in `J`, before `J` is evicted. -/
theorem applyJump_placed {B B₁ D : Binary} {I J A i : Nat} {T : Trampoline} {P : Patch}
    (ha : Allocated B B₁ A T (some I)) (hin : WithinBounds B T J I i false (B₁.entry A))
    (hT : T ≠ evicteeTrampoline) (h : B₁.applyJump J .T3 A i = .ok (D, P)) :
    PlacedJump I J i T B D A ∧ (∀ k, (D.Is k).is_evicted = (B.Is k).is_evicted) ∧
      ((B.Is J).is_evicted = false → Undoes B D [P]) := by
  obtain ⟨hD, rfl⟩ := applyJump_ok h
  obtain ⟨hwritten, hjumps⟩ := placed_jumps ha hin (Rewrites.refl _)
    (fun q _ => by rw [newPatch_cell, ha.cell]) hD
  have hr := hwritten.rewrites
  have hBI : B₁.Is = B.Is := by rw [ha.binary]
  have hflags : ∀ k, (D.Is k).is_evicted = (B.Is k).is_evicted := by
    intro k
    rw [hr.Is, newPatch_Is, hBI]
    by_cases hk : k = J
    · subst hk
      simp [ha.T, hT]
    · rw [if_neg hk]
  have hoff : ((B₁.newPatch J .T3 (some A)).1.Is J).offset = (B.Is J).offset := by
    rw [newPatch_Is, if_pos rfl, hBI]
  have hsize : ((B₁.newPatch J .T3 (some A)).1.Is J).size = (B.Is J).size := by
    rw [newPatch_Is, if_pos rfl, hBI]
  have hev : Evolves B D := by
    intro q
    have := hwritten.evolves q
    rwa [newPatch_cell, ha.cell] at this
  have hall := ha.progress.allocates
  have hp : Progress B D := (ha.progress.trans (newPatch_progress hall J .T3 (some A))).trans
    (hr.progress (fun q => by rw [newPatch_cell, ha.cell]; exact hev q)
      (newPatch_progress hall J .T3 (some A)).allocates)
  have halloc : D.allocator = B₁.allocator := by
    rw [hr]
    rfl
  have hrec : D.alloc A = B₁.alloc A := by rw [alloc, alloc, halloc]
  refine ⟨⟨hp, .of_flags fun k hk => by rwa [hflags] at hk, by rw [halloc]; exact ha.live,
    by rw [hrec, ha.I], by rw [hrec, ha.T], by rw [← hsize]; exact hwritten.inside, ?_⟩, hflags,
    fun hevJ => ?_⟩
  · have : D.entry A = B₁.entry A := by rw [entry, entry, hrec]
    rwa [this]
  · refine undoes_newPatch ha.binary hevJ (fun t' ht' => ha.deallocate ht') hr fun q hq => ?_
    have hwin := hwritten.window
    simp only [InWindow, PATCH_MAX, JMP_SIZE] at hq hwin
    rw [hwritten.other q (by rw [hoff]; omega), newPatch_cell, ha.cell]

/-- An open byte is not in an evicted instruction. -/
theorem WellFormed.not_evicted_of_open {B : Binary} (hw : WellFormed B) {J i : Nat} (hJ : J < B.count)
    (hi : i < (B.Is J).size) (hs : B.STATE J i = STATE_INSTRUCTION) : (B.Is J).is_evicted = false := by
  by_contra hne
  have := (hw.evicted J hJ (by simpa using hne)).2 i hi
  exact this.2.1 hs

theorem unused_cases {s : ByteState} (h : unused s = true) : s = STATE_INSTRUCTION ∨ s = STATE_FREE := by
  simpa [unused] using h

/-- The part of `placeJump` after the flag is set; `save` is what it was. -/
theorem placeJump_body {B₀ B₁ D : Binary} {I J A i : Nat} {T : Trampoline} {P : Patch}
    {r : Binary × List Patch} (save : Bool) (hw : WellFormed B₀) (hJ : J < B₀.count) (hT : T ≠ evicteeTrampoline)
    (hs : B₀.STATE J i = STATE_INSTRUCTION) (ha : Allocated B₀ B₁ A T (some I))
    (hin : WithinBounds B₀ T J I i false (B₁.entry A)) (hD : B₁.applyJump J .T3 A i = .ok (D, P))
    (hQ : evict J .T3 evicteeTrampoline D = .ok r) :
    (r.2 = [] ∧ Unchanged (B₀.setNoOptimize J save) ((r.1.setNoOptimize J save).undo [P])) ∨
      ∃ Q, r.2 = [Q] ∧ PlacedJump I J i T B₀ r.1 A := by
  obtain ⟨hplaced, hflags, hundo⟩ := applyJump_placed ha hin hT hD
  have hwD := hw.evicts hplaced.progress hplaced.evicts
  rcases evict_spec hwD (by rwa [hplaced.progress.count]) hQ with ⟨hnil, hu⟩ | ⟨Q, hQ', hred⟩
  · refine Or.inl ⟨hnil, ?_⟩
    have hP : P.I = J := by rw [(applyJump_ok hD).2, newPatch_I]
    have := (hundo (hw.not_evicted_of_open hJ hplaced.inside hs)).unchanged hu
    have hcomm := undo_setNoOptimize r.1 P save
    rw [hP] at hcomm
    rw [hcomm]
    exact this.setNoOptimize J save
  · obtain ⟨hl, hrec⟩ := hred.progress.keeps.live hplaced.live
    have hrec' : r.1.alloc A = D.alloc A := hrec
    obtain ⟨ho, -, haddr⟩ := (hred.progress.instrs J).fields
    have hentry : r.1.entry A = D.entry A := by rw [entry, entry, hrec']
    refine Or.inr ⟨Q, hQ', hplaced.progress.trans hred.progress,
      hplaced.evicts.trans hred.evicts hplaced.progress hred.progress, hl, by rw [hrec', hplaced.I],
      by rw [hrec', hplaced.T], hplaced.inside, ?_⟩
    rw [hentry]
    exact hplaced.jumps.evolves hred.progress.evolves ho haddr

theorem placeJump_spec {B : Binary} {I J i : Nat} {T : Trampoline} {backward : Bool}
    {r : Binary × Option Nat × List Patch} (hw : WellFormed B) (hJ : J < B.count)
    (hT : T ≠ evicteeTrampoline) (hs : unused (B.STATE J i) = true)
    (h : placeJump I J i T backward B = .ok r) :
    (r.2.1 = none ∧ Unchanged B r.1) ∨ ∃ A, r.2.1 = some A ∧ PlacedJump I J i T B r.1 A := by
  unfold placeJump at h
  obtain ⟨B₀, hB₀⟩ : ∃ B₀, B₀ = if backward = true then B.setNoOptimize J true else B := ⟨_, rfl⟩
  simp only [← hB₀] at h
  have hrestore : B₀.setNoOptimize J (B.Is J).no_optimize = B := by
    rw [hB₀]
    split
    · exact setNoOptimize_restore B J true
    · exact setNoOptimize_self B J
  have hp₀ : Progress B B₀ := by
    rw [hB₀]
    split
    · exact setNoOptimize_progress hw.allocates J true
    · exact .refl hw.allocates
  have he₀ : ∀ k, (B₀.Is k).is_evicted = (B.Is k).is_evicted := by
    intro k
    rw [hB₀]
    split
    · rw [setNoOptimize_Is]
      by_cases hk : k = J
      · rw [if_pos hk, hk]
      · rw [if_neg hk]
    · rfl
  have hs₀ : B₀.STATE J i = B.STATE J i := by
    rw [hB₀]
    split
    · rw [STATE, STATE, setNoOptimize_Is, if_pos rfl]
      rfl
    · rfl
  have hev₀ : EvictsOnly B B₀ := .of_flags fun k hk => by rwa [he₀] at hk
  have hw₀ : WellFormed B₀ := hw.evicts hp₀ hev₀
  have hJ₀ : J < B₀.count := by rwa [hp₀.count]
  have hlift : ∀ {E A}, PlacedJump I J i T B₀ E A → PlacedJump I J i T B E A := fun h' =>
    ⟨hp₀.trans h'.progress, hev₀.trans h'.evicts hp₀ h'.progress, h'.live, h'.I, h'.T,
      by rw [← (hp₀.instrs J).fields.2.1]; exact h'.inside, h'.jumps⟩
  obtain ⟨o, ho, h⟩ := bind_ok.mp h
  cases o with
  | none =>
      cases h
      exact Or.inl ⟨rfl, by rw [hrestore]; exact .refl hw.allocates⟩
  | some o =>
      obtain ⟨B₁, A⟩ := o
      obtain ⟨ha, hin⟩ := allocatePunnedJump_spec hw₀.allocates ho
      obtain ⟨⟨D, P⟩, hD, h⟩ := bind_ok.mp h
      simp only at h
      split at h
      · cases h
        exact Or.inr ⟨A, rfl, hlift (applyJump_placed ha hin hT hD).1⟩
      · rename_i hfree
        obtain ⟨Q, hQ, h⟩ := bind_ok.mp h
        have hinstr : B₀.STATE J i = STATE_INSTRUCTION := by
          rw [hs₀]
          exact (unused_cases hs).resolve_right hfree
        rcases placeJump_body (B.Is J).no_optimize hw₀ hJ₀ hT hinstr ha hin hD hQ with
          ⟨hnil, hu⟩ | ⟨Q', hQ', hplaced⟩
        · rw [hnil] at h
          cases h
          rw [hrestore] at hu
          exact Or.inl ⟨rfl, hu⟩
        · simp only [hQ', List.isEmpty_cons, Bool.false_eq_true, if_false] at h
          cases h
          exact Or.inr ⟨A, rfl, hlift hplaced⟩

/-- The outcome of a search for a place: a jump in some other instruction. -/
def Found (I : Nat) (T : Trampoline) (B : Binary) (r : Binary × Option (Nat × Int) × List Patch) : Prop :=
  (r.2.1 = none ∧ Unchanged B r.1) ∨ ∃ A J i, r.2.1 = some (A, (B.Is J).addr + (i : Nat)) ∧ J ≠ I ∧
    PlacedJump I J i T B r.1 A

theorem Found.of_unchanged {B C : Binary} {I : Nat} {T : Trampoline}
    {r : Binary × Option (Nat × Int) × List Patch} (h : Found I T C r) (hu : Unchanged B C) :
    Found I T B r := by
  rcases h with ⟨hnil, hu'⟩ | ⟨A, J, i, hA, hJI, hplaced⟩
  · exact Or.inl ⟨hnil, hu.trans hu'⟩
  · rw [hu.Is] at hA
    exact Or.inr ⟨A, J, i, hA, hJI, hplaced.of_unchanged hu⟩

theorem tactic_T3Bytes_spec {B : Binary} {I J : Nat} {T : Trampoline} {is : List Nat}
    {r : Binary × Option (Nat × Int) × List Patch} (hw : WellFormed B) (hJ : J < B.count) (hJI : J ≠ I)
    (hT : T ≠ evicteeTrampoline) (h : tactic_T3Bytes I J T B is = .ok r) : Found I T B r := by
  induction is generalizing B with
  | nil =>
      cases h
      exact Or.inl ⟨rfl, .refl hw.allocates⟩
  | cons i is ih =>
      unfold tactic_T3Bytes at h
      simp only at h
      split at h
      · exact ih hw hJ h
      split at h
      · exact ih hw hJ h
      split at h
      · cases h
        exact Or.inl ⟨rfl, .refl hw.allocates⟩
      split at h
      · exact ih hw hJ h
      split at h
      · rename_i hs
        obtain ⟨p, hp, h⟩ := bind_ok.mp h
        rcases placeJump_spec hw hJ hT hs hp with ⟨hnil, hu⟩ | ⟨A, hA, hplaced⟩
        · simp only [hnil] at h
          exact (ih (hw.unchanged hu) (by rwa [hu.progress.count]) h).of_unchanged hu
        · simp only [hA] at h
          cases h
          exact Or.inr ⟨A, J, i, rfl, hJI, hplaced⟩
      · exact ih hw hJ h

theorem tactic_T3Loop_spec {B : Binary} {I fuel : Nat} {T : Trampoline} {J : Option Nat}
    {r : Binary × Option (Nat × Int) × List Patch} (hw : WellFormed B) (hJ : ∀ j ∈ J, j < B.count)
    (hT : T ≠ evicteeTrampoline) (h : tactic_T3Loop I T fuel J B = .ok r) : Found I T B r := by
  induction fuel generalizing J B with
  | zero =>
      cases h
      exact Or.inl ⟨rfl, .refl hw.allocates⟩
  | succ fuel ih =>
      cases J with
      | none =>
          cases h
          exact Or.inl ⟨rfl, .refl hw.allocates⟩
      | some J =>
          have hprev : ∀ {C}, WellFormed C → ∀ j ∈ C.prev J, j < C.count :=
            fun hC j hj => (prev_some hC hj).2
          unfold tactic_T3Loop at h
          split at h
          · exact ih hw (hprev hw) h
          rename_i hJI
          split at h
          · cases h
            exact Or.inl ⟨rfl, .refl hw.allocates⟩
          split at h
          · cases h
            exact Or.inl ⟨rfl, .refl hw.allocates⟩
          split at h
          · exact ih hw (hprev hw) h
          obtain ⟨p, hp, h⟩ := bind_ok.mp h
          have hfound := tactic_T3Bytes_spec hw (hJ J rfl) hJI hT hp
          rcases hfound with ⟨hnil, hu⟩ | ⟨A, J', i, hA, hJI', hplaced⟩
          · simp only [hnil] at h
            have hw' := hw.unchanged hu
            exact (ih hw' (hprev hw') h).of_unchanged hu
          · simp only [hA] at h
            cases h
            exact Or.inr ⟨A, J', i, hA, hJI', hplaced⟩

theorem furthest_le (B : Binary) (I k : Nat) : B.furthest I k ≤ k := by
  induction k with
  | zero => exact Nat.le_refl _
  | succ k ih =>
      unfold furthest
      split
      · exact Nat.le_refl _
      · split
        · exact Nat.le_refl _
        · exact Nat.le_succ_of_le ih

/-- A patch with an allocation that is not for an evictee leaves the eviction flags alone. -/
theorem newPatch_not_evicts {B : Binary} {I : Nat} {tactic : Tactic} {A : Option Nat}
    (hA : ∀ a ∈ A, (B.alloc a).T ≠ some evicteeTrampoline) (k : Nat) :
    ((B.newPatch I tactic A).1.Is k).is_evicted = (B.Is k).is_evicted := by
  rw [newPatch_Is]
  by_cases hk : k = I
  · subst hk
    cases A with
    | none => simp
    | some a => simp [hA a rfl]
  · rw [if_neg hk]

theorem skipForward_lt {B : Binary} (hw : WellFormed B) {target : Int} {fuel : Nat} {J : Option Nat}
    (hJ : ∀ j ∈ J, j < B.count) {k : Nat} (h : B.skipForward target fuel J = some k) : k < B.count := by
  induction fuel generalizing J with
  | zero => exact hJ k h
  | succ fuel ih =>
      cases J with
      | none => cases h
      | some j =>
          unfold skipForward at h
          split at h
          · exact ih (fun i hi => (next_some hw hi).2) h
          · exact hJ k h

theorem skipBackward_lt {B : Binary} (hw : WellFormed B) {target : Int} {fuel : Nat} {J : Option Nat}
    (hJ : ∀ j ∈ J, j < B.count) {k : Nat} (h : B.skipBackward target fuel J = some k) : k < B.count := by
  induction fuel generalizing J with
  | zero => exact hJ k h
  | succ fuel ih =>
      cases J with
      | none => cases h
      | some j =>
          unfold skipBackward at h
          split at h
          · exact ih (fun i hi => (prev_some hw hi).2) h
          · exact hJ k h

section
variable {B : Binary} {I : Nat} {T : Trampoline} {r : Binary × List Patch}

theorem patchSingleByte_spec {E : Binary} {A J i : Nat} {Ps : List Patch} (hT : T ≠ evicteeTrampoline)
    (hsize : (B.Is I).size = 1) (hplaced : PlacedJump I J i T B E A)
    (h : E.patchSingleByte I A Ps = .ok r) : AllOrNothing I T B r := by
  unfold patchSingleByte at h
  obtain ⟨_, hs, h⟩ := bind_ok.mp h
  rw [assert_ok] at hs
  obtain ⟨K, -, h⟩ := bind_ok.mp h
  cases h
  obtain ⟨C, hC⟩ : ∃ C, C = (E.newPatch I .T3 (some A)).1 := ⟨_, rfl⟩
  rw [← hC] at hs
  simp only [← hC]
  obtain ⟨D, hD⟩ : ∃ D, D = C.write (C.Is I).offset 0xEB := ⟨_, rfl⟩
  simp only [← hD]
  have hp₁ : Progress E C := hC ▸ newPatch_progress hplaced.progress.allocates I .T3 (some A)
  have hunused : unused (C.state (C.Is I).offset) = true := by
    have hs' : C.state (C.Is I).offset = STATE_INSTRUCTION := hs
    rw [hs']
    rfl
  have hp₂ : Progress C D :=
    hD ▸ (rewrites_write C _ 0xEB).progress (write_evolves hunused) hp₁.allocates
  have hp₃ : Progress D (D.setState (D.Is K).offset (D.STATE K 0).lock) :=
    (rewrites_setState D _ _).progress (lock_evolves D _) hp₂.allocates
  have hEF := hp₁.trans (hp₂.trans hp₃)
  have hflags : ∀ k, (D.Is k).is_evicted = (E.Is k).is_evicted := by
    intro k
    rw [hD, (rewrites_write C (C.Is I).offset 0xEB).Is, hC]
    refine newPatch_not_evicts (fun a ha => ?_) k
    obtain rfl : A = a := by simpa using ha
    rw [hplaced.T]
    exact fun he => hT (Option.some.inj he)
  have hp := hplaced.progress.trans hEF
  have hev : EvictsOnly E (D.setState (D.Is K).offset (D.STATE K 0).lock) :=
    .of_flags fun k hk => (hflags k) ▸ hk
  refine Or.inr ⟨by simp, hp, hplaced.evicts.trans hev hplaced.progress hEF, ?_⟩
  intro P hP
  obtain rfl : _ = P := by simpa using hP
  rw [newPatch_tactic]
  intro h2
  rw [(hp.instrs I).fields.2.1, hsize] at h2
  omega

theorem tactic_T3b_spec (hw : WellFormed B) (hT : T ≠ evicteeTrampoline)
    (h : tactic_T3b I T B = .ok r) : AllOrNothing I T B r := by
  have hself : Unchanged B B := .refl hw.allocates
  unfold tactic_T3b at h
  split at h
  · cases h
    exact .unchanged hself
  rename_i hcond
  rw [not_or, not_not] at hcond
  split at h
  · cases h
    exact .unchanged hself
  rename_i K hK
  split at h
  · cases h
    exact .unchanged hself
  simp only at h
  split at h
  · cases h
    exact .unchanged hself
  split at h
  · cases h
    exact .unchanged hself
  rename_i J hJ
  split at h
  · cases h
    exact .unchanged hself
  split at h
  · rename_i hs
    obtain ⟨p, hp, h⟩ := bind_ok.mp h
    have hJc : J < B.count := by
      split at hJ
      · exact skipForward_lt hw (fun j hj => by cases hj; exact (succ_some hw hK).2.1) hJ
      · exact skipBackward_lt hw (fun j hj => (prev_some hw hj).2) hJ
    rcases placeJump_spec hw hJc hT hs hp with ⟨hnil, hu⟩ | ⟨A, hA, hplaced⟩
    · simp only [hnil] at h
      cases h
      exact .unchanged hu
    · simp only [hA] at h
      exact patchSingleByte_spec hT hcond.1 hplaced h
  · cases h
    exact .unchanged hself

/-- The two bytes of a short jump, which `patchUnused` leaves alone. -/
theorem shortJump_bytes {B C D : Binary} {I : Nat} {addr : Int} (hC : B.patchShortJump I addr = .ok C)
    (hD : C.patchUnused I 2 = .ok D) :
    D.PATCH I 0 = 0xEB ∧ Protected (D.STATE I 0) ∧ Protected (D.STATE I 1) ∧
      (B.Is I).addr + 2 + signed8 (D.PATCH I 1).toNat = addr := by
  obtain ⟨hlo, hhi, -, -, rfl⟩ := patchShortJump_spec hC
  obtain ⟨-, hr, hc⟩ := patchUnused_spec hD
  have h0 := hc (B.Is I).offset
  have h1 := hc ((B.Is I).offset + 1)
  have hIs : D.Is = B.Is := by rw [hr.Is]; rfl
  have hoff : (((B.write (B.Is I).offset 0xEB).write ((B.Is I).offset + 1)
      (byte (addr - ((B.Is I).addr + 2)))).Is I).offset = (B.Is I).offset := rfl
  rw [hoff, if_neg (by omega), cell_write, if_neg (by omega), cell_write, if_pos rfl] at h0
  rw [hoff, if_neg (by omega), cell_write, if_pos rfl] at h1
  have hb0 := congrArg Prod.fst h0
  have hs0 := congrArg Prod.snd h0
  have hb1 := congrArg Prod.fst h1
  have hs1 := congrArg Prod.snd h1
  simp only [cell_fst, cell_snd] at hb0 hs0 hb1 hs1
  simp only [PATCH, STATE, hIs, Nat.add_zero, hb0, hs0, hb1, hs1]
  refine ⟨trivial, Or.inl rfl, Or.inl rfl, ?_⟩
  rw [signed8_byte, signed8_eq hlo (by omega)]
  omega

/-- The last part of T3: the short jump to the jump that was placed. -/
theorem shortJump_spec {E F G : Binary} {A J i : Nat} {Ps : List Patch} (hT : T ≠ evicteeTrampoline)
    (hplaced : PlacedJump I J i T B E A)
    (hF : (E.newPatch I .T3 (some A)).1.patchShortJump I ((B.Is J).addr + (i : Nat)) = .ok F)
    (hG : F.patchUnused I 2 = .ok G) :
    AllOrNothing I T B (G, (E.newPatch I .T3 (some A)).2 :: Ps) := by
  obtain ⟨C, hC⟩ : ∃ C, C = (E.newPatch I .T3 (some A)).1 := ⟨_, rfl⟩
  rw [← hC] at hF
  have hp₁ : Progress E C := hC ▸ newPatch_progress hplaced.progress.allocates I .T3 (some A)
  have hrF : Rewrites C F := by
    obtain ⟨-, -, -, -, rfl⟩ := patchShortJump_spec hF
    rfl
  have hrG : Rewrites F G := (patchUnused_spec hG).2.1
  have hp₂ : Progress C F := hrF.progress (patchShortJump_evolves hF) hp₁.allocates
  have hp₃ : Progress F G := hrG.progress (patchUnused_evolves hG) hp₂.allocates
  have hEG := hp₁.trans (hp₂.trans hp₃)
  have hp := hplaced.progress.trans hEG
  have hflags : ∀ k, (G.Is k).is_evicted = (E.Is k).is_evicted := by
    intro k
    rw [(hrF.trans hrG).Is, hC]
    refine newPatch_not_evicts (fun a ha => ?_) k
    obtain rfl : A = a := by simpa using ha
    rw [hplaced.T]
    exact fun he => hT (Option.some.inj he)
  have hev : EvictsOnly E G := .of_flags fun k hk => (hflags k) ▸ hk
  refine Or.inr ⟨by simp, hp, hplaced.evicts.trans hev hplaced.progress hEG, ?_⟩
  intro P hP
  obtain rfl : _ = P := by simpa using hP
  rw [newPatch_tactic]
  intro _
  obtain ⟨hl, hrec⟩ := hEG.keeps.live hplaced.live
  have halloc : G.alloc A = E.alloc A := hrec
  have hentry : G.entry A = E.entry A := by rw [entry, entry, halloc]
  obtain ⟨hb0, hs0, hs1, htarget⟩ := shortJump_bytes hF hG
  obtain ⟨hoE, -, haddrE⟩ := (hEG.instrs J).fields
  have haddr : (G.Is I).addr = (C.Is I).addr := ((hp₂.trans hp₃).instrs I).fields.2.2
  refine ⟨A, J, i, hl, by rw [halloc, hplaced.I], by rw [halloc, hplaced.T], hb0, hs0, hs1, ?_, ?_, ?_⟩
  · rw [(hp.instrs J).fields.2.1]
    exact hplaced.inside
  · rw [haddr, htarget, (hp.instrs J).fields.2.2]
  · rw [hentry]
    exact hplaced.jumps.evolves hEG.evolves hoE haddrE

theorem tactic_T3_spec (hw : WellFormed B) (hI : I < B.count) (hT : T ≠ evicteeTrampoline)
    (h : tactic_T3 I T B = .ok r) : AllOrNothing I T B r := by
  unfold tactic_T3 at h
  split at h
  · exact tactic_T3b_spec hw hT h
  split at h
  · cases h
    exact .unchanged (.refl hw.allocates)
  obtain ⟨p, hp, h⟩ := bind_ok.mp h
  have hstart : ∀ j ∈ some (B.furthest I I), j < B.count := fun j hj => by
    obtain rfl : B.furthest I I = j := by simpa using hj
    exact Nat.lt_of_le_of_lt (furthest_le B I I) hI
  rcases tactic_T3Loop_spec hw hstart hT hp with ⟨hnil, hu⟩ | ⟨A, J, i, hA, -, hplaced⟩
  · simp only [hnil] at h
    cases h
    exact .unchanged hu
  · simp only [hA] at h
    obtain ⟨F, hF, h⟩ := bind_ok.mp h
    obtain ⟨G, hG, h⟩ := bind_ok.mp h
    cases h
    exact shortJump_spec hT hplaced hF hG

end

end E9Patch
