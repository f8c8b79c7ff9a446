import Mathlib.Algebra.Order.Ring.Int
import Mathlib.Tactic.Common

/-!
The search by halving: the ends of the range are both part of it, and a comparison says on which side of an
element the search goes on. The element searched for may be a number in a list or an interval that has a point.
-/

namespace BinarySearch

/-- What a search ends with: a position, or the place where the element would be. -/
inductive Result where
  | found (i : Nat)
  | missing (lo : Nat)
  deriving DecidableEq, Repr

/-- The loop; `cmp i` is `.lt` for an element before the one searched for. Every round shrinks the range. -/
def loop (cmp : Nat → Ordering) : Nat → Int → Int → Result
  | 0, lo, _ => .missing lo.toNat
  | fuel + 1, lo, hi =>
    if lo ≤ hi then
      let mid := (lo + hi) / 2
      match cmp mid.toNat with
      | .lt => loop cmp fuel (mid + 1) hi
      | .gt => loop cmp fuel lo (mid - 1)
      | .eq => .found mid.toNat
    else .missing lo.toNat

/-- The search among the positions below `size`. -/
def search (cmp : Nat → Ordering) (size : Nat) : Result := loop cmp size 0 (size - 1)

/-- The position that was found, if there is one. -/
def Result.index : Result → Option Nat
  | .found i => some i
  | .missing _ => none

/-- The elements before the one searched for are those of the lower positions. -/
structure Monotone (cmp : Nat → Ordering) (size : Nat) : Prop where
  below : ∀ i j, i < j → j < size → cmp j = .lt → cmp i = .lt
  above : ∀ i j, i < j → j < size → cmp i = .gt → cmp j = .gt

variable {cmp : Nat → Ordering} {size : Nat}

/-- What was found is what was searched for, in the range. -/
theorem loop_found {fuel : Nat} {lo hi : Int} {i : Nat} (h : loop cmp fuel lo hi = .found i) (h0 : 0 ≤ lo) :
    cmp i = .eq ∧ lo ≤ i ∧ (i : Int) ≤ hi := by
  induction fuel generalizing lo hi with
  | zero => cases h
  | succ fuel ih =>
      rw [loop] at h
      split_ifs at h with hle
      · dsimp only at h
        cases hc : cmp ((lo + hi) / 2).toNat with
        | lt =>
            rw [hc] at h
            obtain ⟨h1, h2, h3⟩ := ih h (by omega)
            exact ⟨h1, by omega, h3⟩
        | gt =>
            rw [hc] at h
            obtain ⟨h1, h2, h3⟩ := ih h h0
            exact ⟨h1, h2, by omega⟩
        | eq =>
            rw [hc] at h
            injection h with h
            rw [← h]
            exact ⟨hc, by omega, by omega⟩

/-- Without success the search ends between what is before and what is not. -/
theorem loop_missing {fuel : Nat} {lo hi : Int} {k : Nat} (h : loop cmp fuel lo hi = .missing k)
    (hfuel : hi + 1 - lo ≤ fuel) (h0 : 0 ≤ lo) (hle : lo ≤ hi + 1) (hhi : hi < size) (hmono : Monotone cmp size)
    (hbelow : ∀ i : Nat, (i : Int) < lo → cmp i = .lt)
    (habove : ∀ i : Nat, i < size → hi < (i : Int) → cmp i = .gt) :
    k ≤ size ∧ (∀ i < k, cmp i = .lt) ∧ ∀ i < size, k ≤ i → cmp i = .gt := by
  induction fuel generalizing lo hi with
  | zero =>
      rw [loop, Result.missing.injEq] at h
      exact ⟨by omega, fun i hi => hbelow i (by omega), fun i hi hk => habove i hi (by omega)⟩
  | succ fuel ih =>
      rw [loop] at h
      split_ifs at h with hlt
      · dsimp only at h
        have hmid : ((((lo + hi) / 2).toNat : Nat) : Int) = (lo + hi) / 2 := Int.toNat_of_nonneg (by omega)
        cases hc : cmp ((lo + hi) / 2).toNat with
        | lt =>
            rw [hc] at h
            refine ih h (by omega) (by omega) (by omega) hhi (fun i hlo => ?_) habove
            rcases lt_or_eq_of_le (show i ≤ ((lo + hi) / 2).toNat by omega) with hlt | rfl
            · exact hmono.below i _ hlt (by omega) hc
            · exact hc
        | gt =>
            rw [hc] at h
            refine ih h (by omega) h0 (by omega) (by omega) hbelow (fun i hsize hk => ?_)
            rcases lt_or_eq_of_le (show ((lo + hi) / 2).toNat ≤ i by omega) with hlt | heq
            · exact hmono.above _ i hlt hsize hc
            · rw [← heq]
              exact hc
        | eq =>
            rw [hc] at h
            cases h
      · injection h with h
        exact ⟨by omega, fun i hi => hbelow i (by omega), fun i hi hk => habove i hi (by omega)⟩

theorem search_found {i : Nat} (h : search cmp size = .found i) : cmp i = .eq ∧ i < size := by
  obtain ⟨h1, -, h2⟩ := loop_found h le_rfl
  exact ⟨h1, by omega⟩

/-- The place where the element would be: all before it are before the element, all others behind it. -/
theorem search_missing {k : Nat} (hmono : Monotone cmp size) (h : search cmp size = .missing k) :
    k ≤ size ∧ (∀ i < k, cmp i = .lt) ∧ ∀ i < size, k ≤ i → cmp i = .gt :=
  loop_missing h (by omega) le_rfl (by omega) (by omega) hmono (fun i hi => by omega) fun i hi hk => by omega

/-- In any order of the elements the search ends in front of an element that is behind, or at the end. -/
theorem loop_missing_gt {fuel : Nat} {lo hi : Int} {k : Nat} (h : loop cmp fuel lo hi = .missing k)
    (hfuel : hi + 1 - lo ≤ fuel) (h0 : 0 ≤ lo) (hle : lo ≤ hi + 1) (hhi : hi < size)
    (habove : hi + 1 < size → cmp (hi + 1).toNat = .gt)
    (hbelow : 0 < lo → cmp (lo - 1).toNat = .lt) :
    (k < size → cmp k = .gt) ∧ (0 < k → cmp (k - 1) = .lt) ∧ k ≤ size := by
  induction fuel generalizing lo hi with
  | zero =>
      rw [loop, Result.missing.injEq] at h
      have h1 : (hi + 1).toNat = k := by omega
      have h2 : (lo - 1).toNat = k - 1 := by omega
      rw [h1] at habove
      rw [h2] at hbelow
      exact ⟨fun hk => habove (by omega), fun hk => hbelow (by omega), by omega⟩
  | succ fuel ih =>
      rw [loop] at h
      split_ifs at h with hlt
      · dsimp only at h
        cases hc : cmp ((lo + hi) / 2).toNat with
        | lt =>
            rw [hc] at h
            refine ih h (by omega) (by omega) (by omega) hhi habove fun _ => ?_
            rw [Int.add_sub_cancel]
            exact hc
        | gt =>
            rw [hc] at h
            refine ih h (by omega) h0 (by omega) (by omega) (fun _ => ?_) hbelow
            rw [Int.sub_add_cancel]
            exact hc
        | eq =>
            rw [hc] at h
            cases h
      · injection h with h
        have h1 : (hi + 1).toNat = k := by omega
        have h2 : (lo - 1).toNat = k - 1 := by omega
        rw [h1] at habove
        rw [h2] at hbelow
        exact ⟨fun hk => habove (by omega), fun hk => hbelow (by omega), by omega⟩

theorem search_missing_gt {k : Nat} (h : search cmp size = .missing k) :
    (k < size → cmp k = .gt) ∧ (0 < k → cmp (k - 1) = .lt) ∧ k ≤ size :=
  loop_missing_gt h (by omega) le_rfl (by omega) (by omega) (fun h => by omega) fun h => by omega

/-! ### Intervals -/

section
variable {κ : Type} [LinearOrder κ]

/-- On which side of `x` an interval is. The interval that is searched for has `x`, both ends included. -/
def side (x lb ub : κ) : Ordering := if ub < x then .lt else if x < lb then .gt else .eq

variable {x lb ub : κ}

theorem side_eq_lt : side x lb ub = .lt ↔ ub < x := by
  rw [side]
  split_ifs with h1 h2 <;> simp [h1]

theorem side_eq_gt (h : lb ≤ ub) : side x lb ub = .gt ↔ x < lb := by
  rw [side]
  split_ifs with h1 h2
  · simp [(h.trans_lt h1).le]
  · simp [h2]
  · simp [h2]

theorem side_eq_eq : side x lb ub = .eq ↔ lb ≤ x ∧ x ≤ ub := by
  rw [side]
  split_ifs with h1 h2
  · simp [h1]
  · simp [h2]
  · simp [not_lt.mp h1, not_lt.mp h2]

end

/-! ### Lists -/

section
variable {α : Type}

/-- The search for an element of a list. -/
def searchList (cmp : α → Ordering) (as : List α) : Result :=
  search (fun i => (as[i]?.map cmp).getD .gt) as.length

/-- Of the elements of a list, those before the one searched for come first, then those that are it. -/
def Divides (cmp : α → Ordering) (as : List α) : Prop :=
  as.Pairwise fun a b => (cmp b = .lt → cmp a = .lt) ∧ (cmp a = .gt → cmp b = .gt)

variable {cmp : α → Ordering} {as : List α}

theorem Divides.monotone (h : Divides cmp as) : Monotone (fun i => (as[i]?.map cmp).getD .gt) as.length := by
  have hpair := List.pairwise_iff_getElem.mp h
  constructor
  · intro i j hij hj hlt
    have hi : i < as.length := hij.trans hj
    rw [List.getElem?_eq_getElem hj] at hlt
    rw [List.getElem?_eq_getElem hi]
    exact (hpair i j hi hj hij).1 hlt
  · intro i j hij hj hgt
    have hi : i < as.length := hij.trans hj
    rw [List.getElem?_eq_getElem hi] at hgt
    rw [List.getElem?_eq_getElem hj]
    exact (hpair i j hi hj hij).2 hgt

/-- Intervals one behind the other. -/
theorem divides_side {κ : Type} [LinearOrder κ] {lb ub : α → κ} (hpair : as.Pairwise fun a b => ub a < lb b)
    (hle : ∀ a ∈ as, lb a ≤ ub a) (x : κ) : Divides (fun a => side x (lb a) (ub a)) as := by
  refine hpair.imp_of_mem fun {a b} ha hb hab => ?_
  rw [side_eq_lt, side_eq_lt, side_eq_gt (hle a ha), side_eq_gt (hle b hb)]
  exact ⟨fun h => (hab.trans_le (hle b hb)).trans h, fun h => (h.trans_le (hle a ha)).trans hab⟩

theorem searchList_found {i : Nat} (h : searchList cmp as = .found i) : ∃ a, as[i]? = some a ∧ cmp a = .eq := by
  obtain ⟨heq, hi⟩ := search_found h
  rw [List.getElem?_eq_getElem hi] at heq
  exact ⟨as[i], List.getElem?_eq_getElem hi, heq⟩

/-- Without an order of the elements. -/
theorem searchList_missing_gt {k : Nat} (h : searchList cmp as = .missing k) :
    k ≤ as.length ∧ (∀ a, as[k]? = some a → cmp a = .gt) ∧ ∀ a, as.getLast? = some a → cmp a ≠ .lt → k < as.length := by
  obtain ⟨hgt, hlt, hk⟩ := search_missing_gt h
  refine ⟨hk, fun a ha => ?_, fun a ha hne => ?_⟩
  · have := hgt (List.getElem?_eq_some_iff.mp ha).1
    rwa [ha] at this
  · rcases lt_or_eq_of_le hk with hk | hk
    · exact hk
    · rw [List.getLast?_eq_getElem?, ← hk] at ha
      have h0 : 0 < k := by
        rcases Nat.eq_zero_or_pos k with rfl | h0
        · rw [List.length_eq_zero_iff.mp hk.symm] at ha
          cases ha
        · exact h0
      have := hlt h0
      rw [ha] at this
      exact absurd this hne

theorem searchList_missing (hdiv : Divides cmp as) {k : Nat} (h : searchList cmp as = .missing k) :
    k ≤ as.length ∧ (∀ a ∈ as.take k, cmp a = .lt) ∧ ∀ a ∈ as.drop k, cmp a = .gt := by
  obtain ⟨hk, hbelow, habove⟩ := search_missing hdiv.monotone h
  refine ⟨hk, fun a ha => ?_, fun a ha => ?_⟩
  · obtain ⟨i, hi, rfl⟩ := List.getElem_of_mem ha
    rw [List.length_take] at hi
    have := hbelow i (by omega)
    rw [List.getElem?_eq_getElem (by omega)] at this
    rw [List.getElem_take]
    exact this
  · obtain ⟨i, hi, rfl⟩ := List.getElem_of_mem ha
    rw [List.length_drop] at hi
    have := habove (k + i) (by omega) (by omega)
    rw [List.getElem?_eq_getElem (by omega)] at this
    rw [List.getElem_drop]
    exact this

/-- A search that fails has nothing to find. -/
theorem searchList_none (hdiv : Divides cmp as) {k : Nat} (h : searchList cmp as = .missing k) :
    ∀ a ∈ as, cmp a ≠ .eq := by
  obtain ⟨-, hbelow, habove⟩ := searchList_missing hdiv h
  intro a ha heq
  rw [← List.take_append_drop k as, List.mem_append] at ha
  rcases ha with ha | ha
  · rw [hbelow a ha] at heq
    cases heq
  · rw [habove a ha] at heq
    cases heq

end

end BinarySearch
