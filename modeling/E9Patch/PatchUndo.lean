import E9Patch.PatchWrites
import E9Patch.AllocSet

/-!
Undoing a patch. `Unchanged` is what a failed tactic must leave behind: everything as before, but for the
shape of the allocator's tree. A patch saves the window of its instruction, so that it undoes whatever is
written there, as long as the instruction was not an evicted one, whose flag `undo` would lose.
-/

namespace E9Patch
open Binary Fallible

/-- The tree of the allocator is the tree of some set of allocations. -/
def Binary.Allocates (B : Binary) : Prop := ∃ ids, Balanced B.allocator ids

/-- Everything is as before, and the allocator has the same allocations. -/
def Unchanged (B B' : Binary) : Prop :=
  ∃ t, B' = { B with allocator := t } ∧ SameAllocations B.allocator t

/-- Undoing `Ps` in `B'`, or in what differs from it by the shape of the tree only, leads back to `B`. -/
def Undoes (B B' : Binary) (Ps : List Patch) : Prop :=
  ∀ B'', Unchanged B' B'' → Unchanged B (B''.undo Ps)

theorem Unchanged.refl {B : Binary} (h : B.Allocates) : Unchanged B B := by
  obtain ⟨ids, hb⟩ := h
  exact ⟨B.allocator, rfl, .refl hb⟩

theorem Unchanged.trans {B B' B'' : Binary} (h : Unchanged B B') (h' : Unchanged B' B'') :
    Unchanged B B'' := by
  obtain ⟨t, rfl, hs⟩ := h
  obtain ⟨t', rfl, hs'⟩ := h'
  exact ⟨t', rfl, hs.trans hs'⟩

theorem Unchanged.allocates {B B' : Binary} (h : Unchanged B B') : B'.Allocates := by
  obtain ⟨t, rfl, ids, ids', -, hb', -⟩ := h
  exact ⟨ids', hb'⟩

@[simp] theorem undo_nil (B : Binary) : B.undo [] = B := rfl

theorem undo_append (B : Binary) (Ps Qs : List Patch) : B.undo (Ps ++ Qs) = (B.undo Ps).undo Qs :=
  List.foldl_append

theorem Undoes.nil {B : Binary} : Undoes B B [] := fun _ h => h

/-- The patches are undone from the last to the first. -/
theorem Undoes.trans {B B' B'' : Binary} {Ps Qs : List Patch} (h : Undoes B B' Ps)
    (h' : Undoes B' B'' Qs) : Undoes B B'' (Qs ++ Ps) := by
  intro C hC
  rw [undo_append]
  exact h _ (h' C hC)

/-- A tactic that fails after others succeeded. -/
theorem Undoes.unchanged {B B' B'' : Binary} {Ps : List Patch} (h : Undoes B B' Ps)
    (h' : Unchanged B' B'') : Unchanged B (B''.undo Ps) := h _ h'

/-! ### A single patch -/

@[simp] theorem newPatch_A (B : Binary) (I : Nat) (tactic : Tactic) (A : Option Nat) :
    (B.newPatch I tactic A).2.A = A := rfl
@[simp] theorem newPatch_I (B : Binary) (I : Nat) (tactic : Tactic) (A : Option Nat) :
    (B.newPatch I tactic A).2.I = I := rfl
@[simp] theorem newPatch_tactic (B : Binary) (I : Nat) (tactic : Tactic) (A : Option Nat) :
    (B.newPatch I tactic A).2.tactic = tactic := rfl
@[simp] theorem newPatch_cell (B : Binary) (I : Nat) (tactic : Tactic) (A : Option Nat) (q : Nat) :
    (B.newPatch I tactic A).1.cell q = B.cell q := rfl
@[simp] theorem newPatch_allocator (B : Binary) (I : Nat) (tactic : Tactic) (A : Option Nat) :
    (B.newPatch I tactic A).1.allocator = B.allocator := rfl

/-- What the instruction `k` is but for its flags is left alone. -/
theorem newPatch_Is (B : Binary) (I : Nat) (tactic : Tactic) (A : Option Nat) (k : Nat) :
    (B.newPatch I tactic A).1.Is k = if k = I then
      { B.Is I with
        is_patched := true
        is_evicted := (A.any fun A => (B.alloc A).T = some evicteeTrampoline) || (B.Is I).is_evicted }
      else B.Is k := rfl

/-- The window that a patch of `I` saves. -/
def Binary.InWindow (B : Binary) (I q : Nat) : Prop :=
  (B.Is I).offset ≤ q ∧ q < (B.Is I).offset + PATCH_MAX

/-- A patch of `I` with writes in its window is undone if it frees what was allocated for it. -/
theorem undoes_newPatch {B B₁ B' : Binary} {I : Nat} {tactic : Tactic} {A : Option Nat}
    (hB₁ : B₁ = { B with allocator := B₁.allocator }) (hev : (B.Is I).is_evicted = false)
    (halloc : ∀ t', SameAllocations B₁.allocator t' → SameAllocations B.allocator (t'.deallocate A))
    (hr : Rewrites (B₁.newPatch I tactic A).1 B')
    (hw : ∀ q, ¬B.InWindow I q → B'.cell q = B.cell q) :
    Undoes B B' [(B₁.newPatch I tactic A).2] := by
  obtain ⟨t, rfl⟩ : ∃ t, B₁ = { B with allocator := t } := ⟨_, hB₁⟩
  rintro B'' ⟨t', rfl, hs⟩
  have hB' : B'.allocator = t := by rw [hr]; rfl
  rw [hB'] at hs
  refine ⟨t'.deallocate A, ?_, halloc t' hs⟩
  have hbytes : ∀ q, ¬((B.Is I).offset ≤ q ∧ q < (B.Is I).offset + PATCH_MAX) → B'.bytes q = B.bytes q :=
    fun q hq => congrArg Prod.fst (hw q hq)
  have hstate : ∀ q, ¬((B.Is I).offset ≤ q ∧ q < (B.Is I).offset + PATCH_MAX) → B'.state q = B.state q :=
    fun q hq => congrArg Prod.snd (hw q hq)
  have hIs : ∀ j, (if j = I then { B'.Is I with is_patched := (B.Is I).is_patched, is_evicted := false }
      else B'.Is j) = B.Is j := by
    intro j
    rw [hr.Is, newPatch_Is]
    by_cases hj : j = I
    · subst hj
      simp only [if_true, ← hev]
    · simp only [newPatch_Is, if_neg hj]
  have hoff : (B'.Is I).offset = (B.Is I).offset := by rw [hr.Is, newPatch_Is, if_pos rfl]
  rw [hr] at hIs hoff
  rw [hr]
  simp only [Binary.undo, List.foldl_cons, List.foldl_nil, undoPatch, setInstr, newPatch, Binary.mk.injEq,
    true_and, and_true, if_true] at *
  refine ⟨?_, ?_, funext hIs⟩
  · funext q
    by_cases hq : (B.Is I).offset ≤ q ∧ q < (B.Is I).offset + PATCH_MAX
    · simp only [if_pos hq, PATCH]
      rw [Nat.add_sub_cancel' hq.1]
    · simp only [if_neg hq, hbytes q hq]
  · funext q
    by_cases hq : (B.Is I).offset ≤ q ∧ q < (B.Is I).offset + PATCH_MAX
    · simp only [if_pos hq, STATE]
      rw [Nat.add_sub_cancel' hq.1]
    · simp only [if_neg hq, hstate q hq]

end E9Patch
