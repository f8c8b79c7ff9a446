import E9Patch.AllocRun

/-!
The allocator as the tactics see it: a set of live allocations with their records. The shape of the
tree does not matter, so that an allocation that is made and freed again leaves the same set behind.
-/

namespace E9Patch
open PtrTree PtrTree.Shape RedBlack

variable {τ ι : Type}

/-- The links determine the tree. -/
theorem holds_unique {h : Store Nat} {s s' : Shape Nat} {p p' : Option Nat} (hs : h.Holds p s)
    (hs' : h.Holds p' s') (hr : s.root = s'.root) : s = s' := by
  induction s generalizing s' p p' with
  | nil =>
      cases s' with
      | nil => rfl
      | node l x r => cases hr
  | node l x r ihl ihr =>
      cases s' with
      | nil => cases hr
      | node l' y r' =>
          obtain rfl : x = y := by simpa using hr
          obtain ⟨-, hl, hrr, h1, h2⟩ := hs
          obtain ⟨-, hl', hrr', h1', h2'⟩ := hs'
          rw [ihl h1 h1' (hl.symm.trans hl'), ihr h2 h2' (hrr.symm.trans hrr')]

theorem balanced_unique {t : Tree τ ι} {ids ids' : List Nat} (h : Balanced t ids)
    (h' : Balanced t ids') : ids = ids' := by
  obtain ⟨s, hv, -, rfl⟩ := h
  obtain ⟨s', hv', -, rfl⟩ := h'
  rw [holds_unique hv.holds hv'.holds (hv.root.symm.trans hv'.root)]

/-- An allocation that was made and not freed. -/
def Live (t : Tree τ ι) (n : Nat) : Prop := ∃ ids, Balanced t ids ∧ n ∈ ids

/-- The same live allocations, with the same records. -/
def SameAllocations (t t' : Tree τ ι) : Prop :=
  ∃ ids ids', Balanced t ids ∧ Balanced t' ids' ∧ ids.Perm ids' ∧
    ∀ n ∈ ids, t'.heap.alloc n = t.heap.alloc n

/-- All that is live in `t` is live in `t'`, with the same record. -/
def KeepsAllocations (t t' : Tree τ ι) : Prop :=
  ∃ ids ids', Balanced t ids ∧ Balanced t' ids' ∧ ids ⊆ ids' ∧
    ∀ n ∈ ids, t'.heap.alloc n = t.heap.alloc n

theorem SameAllocations.refl {t : Tree τ ι} {ids : List Nat} (h : Balanced t ids) :
    SameAllocations t t := ⟨ids, ids, h, h, .refl _, fun _ _ => rfl⟩

theorem SameAllocations.trans {t t' t'' : Tree τ ι} (h : SameAllocations t t')
    (h' : SameAllocations t' t'') : SameAllocations t t'' := by
  obtain ⟨ids, ids', hb, hb', hp, ha⟩ := h
  obtain ⟨ids₁, ids'', hb₁, hb'', hp', ha'⟩ := h'
  obtain rfl := balanced_unique hb' hb₁
  refine ⟨ids, ids'', hb, hb'', hp.trans hp', fun n hn => ?_⟩
  rw [ha' n (hp.mem_iff.mp hn), ha n hn]

theorem SameAllocations.keeps {t t' : Tree τ ι} (h : SameAllocations t t') : KeepsAllocations t t' := by
  obtain ⟨ids, ids', hb, hb', hp, ha⟩ := h
  exact ⟨ids, ids', hb, hb', hp.subset, ha⟩

theorem KeepsAllocations.refl {t : Tree τ ι} {ids : List Nat} (h : Balanced t ids) :
    KeepsAllocations t t := (SameAllocations.refl h).keeps

theorem KeepsAllocations.trans {t t' t'' : Tree τ ι} (h : KeepsAllocations t t')
    (h' : KeepsAllocations t' t'') : KeepsAllocations t t'' := by
  obtain ⟨ids, ids', hb, hb', hp, ha⟩ := h
  obtain ⟨ids₁, ids'', hb₁, hb'', hp', ha'⟩ := h'
  obtain rfl := balanced_unique hb' hb₁
  refine ⟨ids, ids'', hb, hb'', fun n hn => hp' (hp hn), fun n hn => ?_⟩
  rw [ha' n (hp hn), ha n hn]

theorem KeepsAllocations.live {t t' : Tree τ ι} (h : KeepsAllocations t t') {n : Nat} (hn : Live t n) :
    Live t' n ∧ t'.heap.alloc n = t.heap.alloc n := by
  obtain ⟨ids, ids', hb, hb', hp, ha⟩ := h
  obtain ⟨ids₁, hb₁, hm⟩ := hn
  obtain rfl := balanced_unique hb hb₁
  exact ⟨⟨ids', hb', hp hm⟩, ha n hm⟩

theorem KeepsAllocations.balanced {t t' : Tree τ ι} (h : KeepsAllocations t t') :
    ∃ ids, Balanced t' ids := by
  obtain ⟨ids, ids', -, hb', -⟩ := h
  exact ⟨ids', hb'⟩

theorem Added.keeps {t t' : Tree τ ι} {ids : List Nat} {n : Nat} {a : Alloc τ ι}
    (hb : Balanced t ids) (h : Added t t' ids n a) : KeepsAllocations t t' := by
  obtain ⟨⟨ids', hb', hp⟩, hnew, halloc⟩ := h
  refine ⟨ids, ids', hb, hb', fun m hm => hp.mem_iff.mpr (by simp [hm]), fun m hm => ?_⟩
  have hne : m ≠ n := fun he => hnew (he ▸ hm)
  simp only [halloc, hne, if_false]

theorem Added.live {t t' : Tree τ ι} {ids : List Nat} {n : Nat} {a : Alloc τ ι}
    (h : Added t t' ids n a) : Live t' n ∧ t'.heap.alloc n = a := by
  obtain ⟨⟨ids', hb', hp⟩, -, halloc⟩ := h
  refine ⟨⟨ids', hb', hp.mem_iff.mpr (by simp)⟩, ?_⟩
  rw [halloc]
  exact if_pos rfl

/-- Freeing what was added gives back the allocations of before. -/
theorem Added.remove {t t' t'' : Tree τ ι} {ids : List Nat} {n : Nat} {a : Alloc τ ι}
    (hb : Balanced t ids) (h : Added t t' ids n a) (hs : SameAllocations t' t'') :
    SameAllocations t (t''.remove n) := by
  obtain ⟨⟨ids', hb', hp⟩, hnew, halloc⟩ := h
  obtain ⟨ids₁, ids'', hb₁, hb'', hp', ha⟩ := hs
  obtain rfl := balanced_unique hb' hb₁
  have hn : n ∈ ids'' := hp'.mem_iff.mp (hp.mem_iff.mpr (by simp))
  obtain ⟨ids₂, hb₂, hp₂, ha₂⟩ := remove_ok hb'' hn
  refine ⟨ids, ids₂, hb, hb₂, (List.perm_cons n).mp (hp.symm.trans (hp'.trans hp₂.symm)), ?_⟩
  intro m hm
  have hne : m ≠ n := fun he => hnew (he ▸ hm)
  rw [ha₂, ha m (hp.mem_iff.mpr (by simp [hm]))]
  simp only [halloc, hne, if_false]

end E9Patch
