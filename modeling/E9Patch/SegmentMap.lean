import Mathlib.Algebra.Order.Ring.Int
import Mathlib.Data.List.Pairwise
import Mathlib.Tactic.Common

/-!
Translation of numbers by segments: a segment moves a range of them, and a number in none stays as it is.
The translation back swaps source and target of each segment. It is an inverse at a number that was moved,
and at one that was not unless that is where a segment moves others to.
-/

namespace SegmentMap

/-- The numbers from `src` on that are moved to those from `dst` on. -/
structure Segment where
  src : Int
  dst : Int
  len : Nat
  deriving DecidableEq, Repr

namespace Segment

def swap (s : Segment) : Segment := ⟨s.dst, s.src, s.len⟩

def contains (s : Segment) (x : Int) : Bool := s.src ≤ x ∧ x < s.src + s.len

def move (s : Segment) (x : Int) : Int := s.dst + (x - s.src)

theorem contains_iff {s : Segment} {x : Int} : s.contains x = true ↔ s.src ≤ x ∧ x < s.src + s.len := by
  simp [contains]

@[simp] theorem swap_swap (s : Segment) : s.swap.swap = s := rfl

theorem swap_move (s : Segment) (x : Int) : s.swap.move (s.move x) = x := by
  simp only [swap, move]
  omega

/-- A segment has a target for each of its numbers. -/
theorem contains_move {s : Segment} {x : Int} (h : s.contains x = true) : s.swap.contains (s.move x) = true := by
  rw [contains_iff] at h ⊢
  unfold swap move
  simp only
  omega

end Segment

variable {segs : List Segment} {x : Int}

/-- Some segment moves the number. -/
def Covered (segs : List Segment) (x : Int) : Prop := ∃ s ∈ segs, s.contains x = true

def back (segs : List Segment) : List Segment := segs.map Segment.swap

/-- No number is in two segments. -/
def Disjoint (segs : List Segment) : Prop := segs.Pairwise fun s t => ∀ x, ¬(s.contains x = true ∧ t.contains x = true)

def mapAddr (segs : List Segment) (x : Int) : Int :=
  match segs.find? (·.contains x) with
  | some s => s.move x
  | none => x

@[simp] theorem back_back (segs : List Segment) : back (back segs) = segs := by
  unfold back
  rw [List.map_map]
  exact List.map_id'' Segment.swap_swap segs

theorem covered_back {y : Int} : Covered (back segs) y ↔ ∃ s ∈ segs, s.swap.contains y = true := by
  simp [Covered, back]

theorem translate_of_not_covered (h : ¬Covered segs x) : mapAddr segs x = x := by
  have hnone : segs.find? (·.contains x) = none := List.find?_eq_none.mpr fun s hs hc => h ⟨s, hs, hc⟩
  simp only [mapAddr, hnone]

/-- A number stays as it is, or a segment that it is in moves it. -/
theorem translate_cases (segs : List Segment) (x : Int) : mapAddr segs x = x ∧ ¬Covered segs x ∨
    ∃ s ∈ segs, s.contains x = true ∧ mapAddr segs x = s.move x := by
  cases hfind : segs.find? (·.contains x) with
  | none =>
      have hx : ¬Covered segs x := fun ⟨s, hs, hc⟩ => absurd hc (List.find?_eq_none.mp hfind s hs)
      exact Or.inl ⟨translate_of_not_covered hx, hx⟩
  | some s =>
      have hc : s.contains x = true := by simpa using List.find?_some hfind
      exact Or.inr ⟨s, List.mem_of_find?_eq_some hfind, hc, by simp only [mapAddr, hfind]⟩

/-- Where the segments are disjoint, the one that a number is in is the one that moves it. -/
theorem translate_of_contains (hdisjoint : Disjoint segs) {s : Segment} (hs : s ∈ segs) (hx : s.contains x = true) :
    mapAddr segs x = s.move x := by
  induction segs with
  | nil => cases hs
  | cons t segs ih =>
      obtain ⟨ht, hrest⟩ := List.pairwise_cons.mp hdisjoint
      unfold mapAddr
      rcases List.mem_cons.mp hs with rfl | hs
      · rw [List.find?_cons, hx]
      · have hskip : t.contains x = false := Bool.eq_false_iff.mpr fun hc => ht s hs x ⟨hc, hx⟩
        rw [List.find?_cons, hskip]
        exact ih hrest hs

/-- The translation back, where the targets are disjoint. -/
theorem translate_back_iff (hdst : Disjoint (back segs)) :
    mapAddr (back segs) (mapAddr segs x) = x ↔ (Covered (back segs) x → Covered segs x) := by
  rcases translate_cases segs x with ⟨hstay, hx⟩ | ⟨s, hs, hc, hmove⟩
  · rw [hstay]
    rcases translate_cases (back segs) x with ⟨hback, hy⟩ | ⟨t, ht, hc, hback⟩
    · exact iff_of_true hback fun hc => absurd hc hy
    · refine iff_of_false (fun heq => hx ?_) fun himp => hx (himp ⟨t, ht, hc⟩)
      obtain ⟨s, hs, rfl⟩ := List.mem_map.mp ht
      refine ⟨s, hs, ?_⟩
      rw [hback] at heq
      rw [Segment.contains_iff] at hc ⊢
      simp only [Segment.swap, Segment.move] at hc heq
      omega
  · refine iff_of_true ?_ fun _ => ⟨s, hs, hc⟩
    rw [hmove, translate_of_contains hdst (List.mem_map_of_mem hs) (Segment.contains_move hc)]
    exact s.swap_move x

end SegmentMap
