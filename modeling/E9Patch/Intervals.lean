import Mathlib.Algebra.Order.Ring.Int
import Mathlib.Tactic.Common
import Mathlib.Order.Bounds.Basic
import Mathlib.Data.List.Pairwise

/-!
Lists of disjoint intervals, and what an interval tree keeps about one: its bounds and the largest
gap between neighbours, the latter in a field that holds numbers below `cap` only. An interval may be
empty, so that order is `hi a ≤ lo b` for `a` before `b`.
-/

namespace Intervals

variable {α : Type} {lo hi : α → Int}

/-- In ascending order, disjoint, and none with its ends swapped. -/
def Sorted (lo hi : α → Int) (as : List α) : Prop :=
  as.Pairwise (fun a b => hi a ≤ lo b) ∧ ∀ a ∈ as, lo a ≤ hi a

/-- The largest gap between neighbours. -/
def maxGap (lo hi : α → Int) : List α → Int
  | [] => 0
  | [_] => 0
  | a :: b :: as => max (lo b - hi a) (maxGap lo hi (b :: as))

/-- The bounds and the gap kept for a list of intervals. -/
structure Augmented (lo hi : α → Int) (cap : Int) (as : List α) (lb ub : Int) (gap : Nat) :
    Prop where
  least : (∃ a ∈ as, lo a = lb) ∧ ∀ a ∈ as, lb ≤ lo a
  greatest : (∃ a ∈ as, hi a = ub) ∧ ∀ a ∈ as, hi a ≤ ub
  gap : ub - lb < cap → (gap : Int) = maxGap lo hi as

theorem sorted_append {as bs : List α} : Sorted lo hi (as ++ bs) ↔
    Sorted lo hi as ∧ Sorted lo hi bs ∧ ∀ a ∈ as, ∀ b ∈ bs, hi a ≤ lo b := by
  simp only [Sorted, List.pairwise_append, List.mem_append]
  grind

theorem sorted_cons {a : α} {as : List α} : Sorted lo hi (a :: as) ↔
    lo a ≤ hi a ∧ (∀ b ∈ as, hi a ≤ lo b) ∧ Sorted lo hi as := by
  simp only [Sorted, List.pairwise_cons, List.mem_cons]
  grind

/-- A point is in one interval at most. -/
theorem Sorted.unique {as : List α} {a b : α} {x : Int} (hs : Sorted lo hi as) (ha : a ∈ as) (hb : b ∈ as)
    (hax : lo a ≤ x ∧ x < hi a) (hbx : lo b ≤ x ∧ x < hi b) : a = b := by
  induction as with
  | nil => cases ha
  | cons c as ih =>
      obtain ⟨-, hc, hs⟩ := sorted_cons.mp hs
      rcases List.mem_cons.mp ha with hac | ha'
      · rcases List.mem_cons.mp hb with hbc | hb'
        · exact hac.trans hbc.symm
        · have := hc b hb'
          rw [hac] at hax
          omega
      · rcases List.mem_cons.mp hb with hbc | hb'
        · have := hc a ha'
          rw [hbc] at hbx
          omega
        · exact ih hs ha' hb'

/-- Of two intervals one is before the other. -/
theorem Sorted.disjoint {as : List α} {a b : α} (hs : Sorted lo hi as) (ha : a ∈ as) (hb : b ∈ as)
    (hne : a ≠ b) : hi a ≤ lo b ∨ hi b ≤ lo a := by
  let R : α → α → Prop := fun a b => hi a ≤ lo b ∨ hi b ≤ lo a
  have : Std.Symm R := ⟨fun _ _ => Or.symm⟩
  have hR : as.Pairwise R := hs.1.imp Or.inl
  exact hR.forall ha hb hne

theorem maxGap_nonneg (as : List α) : 0 ≤ maxGap lo hi as := by
  induction as with
  | nil => exact le_refl _
  | cons a as ih =>
      cases as with
      | nil => exact le_refl _
      | cons b as =>
          rw [maxGap]
          omega

theorem maxGap_split (as : List α) (x : α) (bs : List α) : maxGap lo hi (as ++ x :: bs) =
    max (maxGap lo hi (as ++ [x])) (maxGap lo hi (x :: bs)) := by
  induction as with
  | nil =>
      have : 0 ≤ maxGap lo hi (x :: bs) := maxGap_nonneg _
      simp only [List.nil_append, maxGap]
      omega
  | cons a as ih =>
      cases as with
      | nil =>
          have : 0 ≤ maxGap lo hi (x :: bs) := maxGap_nonneg _
          simp only [List.cons_append, List.nil_append, maxGap]
          omega
      | cons b as =>
          simp only [List.cons_append, maxGap] at ih ⊢
          rw [ih]
          omega

/-- The gap before an interval put at the end is measured from the greatest upper bound. -/
theorem maxGap_concat {as : List α} {x : α} {ub : Int} (hs : Sorted lo hi as)
    (hub : (∃ a ∈ as, hi a = ub) ∧ ∀ a ∈ as, hi a ≤ ub) :
    maxGap lo hi (as ++ [x]) = max (maxGap lo hi as) (max 0 (lo x - ub)) := by
  induction as with
  | nil =>
      obtain ⟨⟨a, ha, -⟩, -⟩ := hub
      cases ha
  | cons a as ih =>
      obtain ⟨ha, hab, hs'⟩ := sorted_cons.mp hs
      cases as with
      | nil =>
          obtain ⟨⟨b, hb, rfl⟩, -⟩ := hub
          obtain rfl : b = a := by simpa using hb
          simp only [List.cons_append, List.nil_append, maxGap]
          omega
      | cons b as =>
          have hb := (sorted_cons.mp hs').1
          have hle : hi a ≤ lo b := hab b (by simp)
          have hub' : (∃ c ∈ b :: as, hi c = ub) ∧ ∀ c ∈ b :: as, hi c ≤ ub := by
            obtain ⟨⟨c, hc, hcu⟩, hall⟩ := hub
            refine ⟨?_, fun c hc => hall c (by simp [hc])⟩
            rcases List.mem_cons.mp hc with rfl | hc
            · exact ⟨b, by simp, le_antisymm (hall b (by simp)) (by omega)⟩
            · exact ⟨c, hc, hcu⟩
          have := ih hs' hub'
          simp only [List.cons_append, maxGap] at this ⊢
          rw [this]
          omega

/-- The gap after an interval put in front is measured to the least lower bound. -/
theorem maxGap_cons {as : List α} {x : α} {lb : Int} (hs : Sorted lo hi as)
    (hlb : (∃ a ∈ as, lo a = lb) ∧ ∀ a ∈ as, lb ≤ lo a) :
    maxGap lo hi (x :: as) = max (maxGap lo hi as) (max 0 (lb - hi x)) := by
  cases as with
  | nil =>
      obtain ⟨⟨a, ha, -⟩, -⟩ := hlb
      cases ha
  | cons b as =>
      obtain ⟨hb, hbc, -⟩ := sorted_cons.mp hs
      have hlo : lo b = lb := by
        obtain ⟨⟨c, hc, hcl⟩, hall⟩ := hlb
        refine le_antisymm ?_ (hall b (by simp))
        rcases List.mem_cons.mp hc with rfl | hc
        · omega
        · have := hbc c hc
          omega
      have : 0 ≤ maxGap lo hi (b :: as) := maxGap_nonneg _
      rw [maxGap, hlo]
      omega

theorem maxGap_le {as : List α} {lb ub : Int} (hs : Sorted lo hi as)
    (hlb : ∀ a ∈ as, lb ≤ lo a) (hub : ∀ a ∈ as, hi a ≤ ub) (hlu : lb ≤ ub) :
    maxGap lo hi as ≤ ub - lb := by
  induction as with
  | nil =>
      rw [maxGap]
      omega
  | cons a as ih =>
      obtain ⟨ha, hab, hs'⟩ := sorted_cons.mp hs
      have := ih hs' (fun b hb => hlb b (by simp [hb])) (fun b hb => hub b (by simp [hb]))
      have hla := hlb a (by simp)
      cases as with
      | nil =>
          rw [maxGap]
          omega
      | cons b as =>
          have hub' := hub b (by simp)
          have hb := (sorted_cons.mp hs').1
          rw [maxGap]
          omega

/-- A range that is clear of every interval fits into a gap, if there are intervals on both sides. -/
theorem le_maxGap {as : List α} {a b : α} {x k : Int} (hs : Sorted lo hi as) (ha : a ∈ as)
    (hb : b ∈ as) (hax : hi a ≤ x) (hxb : x + k ≤ lo b) (hk : 0 < k)
    (hclear : ∀ c ∈ as, hi c ≤ x ∨ x + k ≤ lo c) : k ≤ maxGap lo hi as := by
  induction as generalizing a with
  | nil => cases ha
  | cons c as ih =>
      obtain ⟨hc, hcb, hs'⟩ := sorted_cons.mp hs
      -- `c` ends before the range: it is `a`, or it is before `a`
      have hcx : hi c ≤ x := by
        rcases List.mem_cons.mp ha with rfl | ha
        · exact hax
        · have h1 := hcb a ha
          have h2 := hs'.2 a ha
          omega
      have hb' : b ∈ as := by
        rcases List.mem_cons.mp hb with rfl | hb
        · omega
        · exact hb
      cases as with
      | nil => cases hb'
      | cons d as =>
          rw [maxGap]
          rcases hclear d (by simp) with hd | hd
          · have := ih hs' (a := d) (by simp) hb' hd fun e he => hclear e (by simp [he])
            omega
          · omega

theorem Augmented.le {cap : Int} {as : List α} {lb ub : Int} {gap : Nat}
    (h : Augmented lo hi cap as lb ub gap) (hs : Sorted lo hi as) : lb ≤ ub := by
  obtain ⟨⟨a, ha, -⟩, hl⟩ := h.least
  have h1 := hl a ha
  have h2 := h.greatest.2 a ha
  have h3 := hs.2 a ha
  omega

theorem Augmented.single {cap : Int} (x : α) :
    Augmented lo hi cap [x] (lo x) (hi x) 0 where
  least := by simp
  greatest := by simp
  gap _ := rfl

/-- What is kept for the parts of a list, each of which may be empty. -/
def Kept (lo hi : α → Int) (cap : Int) (as : List α) : Option (Int × Int × Nat) → Prop
  | none => as = []
  | some (lb, ub, gap) => Augmented lo hi cap as lb ub gap

/-- The values for a whole list from those for the parts on both sides of an interval. -/
theorem Augmented.node {cap : Int} {as bs : List α} {x : α} {l r : Option (Int × Int × Nat)}
    {lb ub : Int} {gap : Nat} (hs : Sorted lo hi (as ++ x :: bs)) (hl : Kept lo hi cap as l)
    (hr : Kept lo hi cap bs r)
    (hlb : lb = l.elim (lo x) (·.1)) (hub : ub = r.elim (hi x) (·.2.1))
    (hgap : ub - lb < cap → (gap : Int) =
      max (max (l.elim 0 (fun v => (v.2.2 : Int))) (r.elim 0 (fun v => (v.2.2 : Int))))
        (max (l.elim 0 (lo x - ·.2.1)) (r.elim 0 (·.1 - hi x)))) :
    Augmented lo hi cap (as ++ x :: bs) lb ub gap := by
  obtain ⟨hsa, hsx, hax⟩ := sorted_append.mp hs
  obtain ⟨hx, hxb, hsb⟩ := sorted_cons.mp hsx
  -- the three cases of each side come down to these bounds
  have hll : (∀ a ∈ as, lb ≤ lo a) ∧ lb ≤ lo x ∧ ((as = [] ∧ lb = lo x) ∨ ∃ a ∈ as, lo a = lb) := by
    rcases l with _ | ⟨v, w, g⟩
    · obtain rfl : as = [] := hl
      exact ⟨by simp, hlb.le, Or.inl ⟨rfl, hlb⟩⟩
    · obtain ⟨⟨a, ha, hav⟩, hmin⟩ := hl.least
      have h1 := hax a ha x (by simp)
      have h2 := hsa.2 a ha
      exact ⟨fun b hb => hlb ▸ hmin b hb, by simp only [Option.elim_some] at hlb; omega, Or.inr ⟨a, ha, hlb ▸ hav⟩⟩
  have hrr : (∀ b ∈ bs, hi b ≤ ub) ∧ hi x ≤ ub ∧ ((bs = [] ∧ ub = hi x) ∨ ∃ b ∈ bs, hi b = ub) := by
    rcases r with _ | ⟨v, w, g⟩
    · obtain rfl : bs = [] := hr
      exact ⟨by simp, hub.ge, Or.inl ⟨rfl, hub⟩⟩
    · obtain ⟨⟨b, hb, hbw⟩, hmax⟩ := hr.greatest
      have h1 := hxb b hb
      have h2 := hsb.2 b hb
      exact ⟨fun a ha => hub ▸ hmax a ha, by simp only [Option.elim_some] at hub; omega, Or.inr ⟨b, hb, hub ▸ hbw⟩⟩
  refine ⟨⟨?_, ?_⟩, ⟨?_, ?_⟩, fun hcap => ?_⟩
  · rcases hll.2.2 with ⟨-, h⟩ | ⟨a, ha, h⟩
    · exact ⟨x, by simp, h.symm⟩
    · exact ⟨a, by simp [ha], h⟩
  · intro a ha
    simp only [List.mem_append, List.mem_cons] at ha
    rcases ha with ha | rfl | ha
    · exact hll.1 a ha
    · exact hll.2.1
    · have := hxb a ha
      omega
  · rcases hrr.2.2 with ⟨-, h⟩ | ⟨b, hb, h⟩
    · exact ⟨x, by simp, h.symm⟩
    · exact ⟨b, by simp [hb], h⟩
  · intro a ha
    simp only [List.mem_append, List.mem_cons] at ha
    rcases ha with ha | rfl | ha
    · have := hax a ha x (by simp)
      omega
    · exact hrr.2.1
    · exact hrr.1 a ha
  · rw [hgap hcap, maxGap_split]
    have hA : maxGap lo hi (as ++ [x]) =
        max (l.elim 0 (fun v => (v.2.2 : Int))) (l.elim 0 (lo x - ·.2.1)) := by
      rcases l with _ | ⟨v, w, g⟩
      · obtain rfl : as = [] := hl
        rfl
      · obtain ⟨⟨a, ha, hav⟩, hmin⟩ := hl.greatest
        have h1 := hax a ha x (by simp)
        have h2 := hl.gap (by simp only [Option.elim_some] at hlb; omega)
        rw [maxGap_concat hsa hl.greatest, ← h2]
        simp only [Option.elim_some]
        omega
    have hB : maxGap lo hi (x :: bs) =
        max (r.elim 0 (fun v => (v.2.2 : Int))) (r.elim 0 (·.1 - hi x)) := by
      rcases r with _ | ⟨v, w, g⟩
      · obtain rfl : bs = [] := hr
        rfl
      · obtain ⟨⟨b, hb, hbv⟩, hmin⟩ := hr.least
        have h1 := hxb b hb
        have h2 := hr.gap (by simp only [Option.elim_some] at hub; omega)
        rw [maxGap_cons hsb hr.least, ← h2]
        simp only [Option.elim_some]
        omega
    rw [hA, hB]
    omega

end Intervals
