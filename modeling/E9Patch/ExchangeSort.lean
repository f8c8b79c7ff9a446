import Mathlib.Algebra.Order.Ring.Int
import Mathlib.Order.Defs.LinearOrder
import Mathlib.Data.List.Perm.Basic

/-!
Sorting by exchanges: the least element is brought to the front by exchanging it with every smaller one that is
met, and the rest is sorted the same way.
-/

namespace ExchangeSort

variable {α : Type} [LinearOrder α]

/-- One run over the elements behind `x`: the least of all, and what is left behind the front. -/
def exchange (x : α) : List α → α × List α
  | [] => (x, [])
  | y :: ys =>
    if y < x then ((exchange y ys).1, x :: (exchange y ys).2)
    else ((exchange x ys).1, y :: (exchange x ys).2)

theorem exchange_length (x : α) (ys : List α) : (exchange x ys).2.length = ys.length := by
  induction ys generalizing x with
  | nil => rfl
  | cons y ys ih =>
      unfold exchange
      split
      · exact congrArg Nat.succ (ih y)
      · exact congrArg Nat.succ (ih x)

/-- The sort of a list of at most `n` elements. -/
def sortUpTo : Nat → List α → List α
  | 0, xs => xs
  | _ + 1, [] => []
  | n + 1, x :: xs => (exchange x xs).1 :: sortUpTo n (exchange x xs).2

def sort (xs : List α) : List α := sortUpTo xs.length xs

/-- An exchange moves elements only. -/
theorem exchange_perm (x : α) (ys : List α) : ((exchange x ys).1 :: (exchange x ys).2).Perm (x :: ys) := by
  induction ys generalizing x with
  | nil => exact List.Perm.refl _
  | cons y ys ih =>
      unfold exchange
      split
      · calc
          ((exchange y ys).1 :: x :: (exchange y ys).2).Perm (x :: (exchange y ys).1 :: (exchange y ys).2) :=
            List.Perm.swap _ _ _
          _ |>.Perm (x :: y :: ys) := List.Perm.cons x (ih y)
      · calc
          ((exchange x ys).1 :: y :: (exchange x ys).2).Perm (y :: (exchange x ys).1 :: (exchange x ys).2) :=
            List.Perm.swap _ _ _
          _ |>.Perm (y :: x :: ys) := List.Perm.cons y (ih x)
          _ |>.Perm (x :: y :: ys) := List.Perm.swap _ _ _

/-- What is brought to the front is the least. -/
theorem exchange_le (x : α) (ys : List α) :
    (exchange x ys).1 ≤ x ∧ ∀ y ∈ (exchange x ys).2, (exchange x ys).1 ≤ y := by
  induction ys generalizing x with
  | nil => exact ⟨le_refl x, nofun⟩
  | cons y ys ih =>
      unfold exchange
      split
      · rename_i hlt
        obtain ⟨hle, hall⟩ := ih y
        have hx : (exchange y ys).1 ≤ x := le_trans hle (le_of_lt hlt)
        refine ⟨hx, fun z hz => ?_⟩
        rcases List.mem_cons.mp hz with rfl | hz
        · exact hx
        · exact hall z hz
      · rename_i hle'
        obtain ⟨hle, hall⟩ := ih x
        refine ⟨hle, fun z hz => ?_⟩
        rcases List.mem_cons.mp hz with rfl | hz
        · exact le_trans hle (not_lt.mp hle')
        · exact hall z hz

theorem sortUpTo_perm (n : Nat) (xs : List α) : (sortUpTo n xs).Perm xs := by
  induction n generalizing xs with
  | zero => exact List.Perm.refl xs
  | succ n ih =>
      cases xs with
      | nil => exact List.Perm.refl _
      | cons x xs => exact (List.Perm.cons _ (ih _)).trans (exchange_perm x xs)

theorem sort_perm (xs : List α) : (sort xs).Perm xs := sortUpTo_perm _ xs

theorem sortUpTo_pairwise {n : Nat} {xs : List α} (h : xs.length ≤ n) : (sortUpTo n xs).Pairwise (· ≤ ·) := by
  induction n generalizing xs with
  | zero =>
      obtain rfl := List.eq_nil_of_length_eq_zero (Nat.le_zero.mp h)
      exact List.Pairwise.nil
  | succ n ih =>
      cases xs with
      | nil => exact List.Pairwise.nil
      | cons x xs =>
          have hlen : (exchange x xs).2.length ≤ n := by
            rw [exchange_length]
            exact Nat.le_of_succ_le_succ h
          refine List.Pairwise.cons (fun y hy => ?_) (ih hlen)
          exact (exchange_le x xs).2 y ((sortUpTo_perm n _).mem_iff.mp hy)

theorem sort_pairwise (xs : List α) : (sort xs).Pairwise (· ≤ ·) := sortUpTo_pairwise (Nat.le_refl _)

/-- Distinct elements come out in strict order. -/
theorem sort_strict {xs : List α} (h : xs.Nodup) : (sort xs).Pairwise (· < ·) := by
  have hnodup : (sort xs).Nodup := (sort_perm xs).nodup_iff.mpr h
  exact (sort_pairwise xs).imp₂ (fun _ _ hle hne => lt_of_le_of_ne hle hne) hnodup

end ExchangeSort
