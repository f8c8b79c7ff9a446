import Mathlib.Algebra.Order.Ring.Int
import Mathlib.Data.List.Pairwise
import Mathlib.Tactic.Common
import Mathlib.Order.Basic

/-!
Maximal runs of the cells below `n` that have a property: the list of them, in ascending order, from the run
that is open at the end of a part and those that are closed in it.
-/

namespace MaximalRuns

/-- The `len` cells from `start` on have the property, and no cell beside them. -/
structure IsRun (p : Nat → Bool) (n start len : Nat) : Prop where
  pos : 0 < len
  le : start + len ≤ n
  all : ∀ k < len, p (start + k) = true
  before : start ≠ 0 → p (start - 1) = false
  behind : start + len ≠ n → p (start + len) = false

variable (p : Nat → Bool)

/-- The length of the run that cell `n` would go on. -/
def openRun : Nat → Nat
  | 0 => 0
  | n + 1 => if p n then openRun n + 1 else 0

/-- The run that is open at `n`, if there is one. -/
def lastRun (n : Nat) : List (Nat × Nat) := if openRun p n = 0 then [] else [(n - openRun p n, openRun p n)]

/-- The runs that a cell below `n` ends. -/
def closedRuns : Nat → List (Nat × Nat)
  | 0 => []
  | n + 1 => if p n then closedRuns n else closedRuns n ++ lastRun p n

/-- All runs below `n`. -/
def runs (n : Nat) : List (Nat × Nat) := closedRuns p n ++ lastRun p n

variable {p} {n start len : Nat}

theorem openRun_le : openRun p n ≤ n := by
  induction n with
  | zero => exact Nat.le_refl _
  | succ n ih =>
      unfold openRun
      split <;> omega

theorem openRun_all {k : Nat} (hk : n - openRun p n ≤ k) (hn : k < n) : p k = true := by
  induction n with
  | zero => omega
  | succ n ih =>
      unfold openRun at hk
      split at hk
      · rename_i hp
        rcases Nat.lt_succ_iff_lt_or_eq.mp hn with hn | rfl
        · exact ih (by omega) hn
        · exact hp
      · omega

theorem openRun_before (h : n - openRun p n ≠ 0) : p (n - openRun p n - 1) = false := by
  induction n with
  | zero => exact absurd rfl h
  | succ n ih =>
      by_cases hp : p n = true
      · have hopen : openRun p (n + 1) = openRun p n + 1 := if_pos hp
        rw [hopen, Nat.add_sub_add_right] at h ⊢
        exact ih h
      · have hopen : openRun p (n + 1) = 0 := if_neg hp
        rw [hopen]
        simpa using hp

/-- What is open at `n` is all that a run ending there can be. -/
theorem openRun_eq (hrun : IsRun p n start len) (hend : start + len = n) : openRun p n = len := by
  have hle := @openRun_le p n
  rcases Nat.lt_trichotomy (openRun p n) len with hlt | heq | hgt
  · have hbefore := openRun_before (p := p) (n := n) (by omega)
    have hall := hrun.all (n - openRun p n - 1 - start) (by omega)
    rw [show start + (n - openRun p n - 1 - start) = n - openRun p n - 1 by omega, hbefore] at hall
    cases hall
  · exact heq
  · have hall := openRun_all (p := p) (n := n) (k := start - 1) (by omega) (by omega)
    rw [hrun.before (by omega)] at hall
    cases hall

theorem mem_lastRun : (start, len) ∈ lastRun p n ↔ IsRun p n start len ∧ start + len = n := by
  have hle := @openRun_le p n
  unfold lastRun
  constructor
  · intro h
    split at h
    · cases h
    · rename_i hopen
      cases List.mem_singleton.mp h
      refine ⟨⟨Nat.pos_of_ne_zero hopen, by omega, fun k hk => openRun_all (Nat.le_add_right _ _) (by omega),
        openRun_before, ?_⟩,
        by omega⟩
      intro hne
      omega
  · rintro ⟨hrun, hend⟩
    have hopen := openRun_eq hrun hend
    have hpos := hrun.pos
    rw [if_neg (by omega), List.mem_singleton, hopen]
    exact Prod.ext (by simp only; omega) rfl

/-- A run that ends before `n` is one of the cells below `n + 1` too. -/
theorem isRun_succ (hend : start + len ≠ n) (hend' : start + len ≠ n + 1) :
    IsRun p (n + 1) start len ↔ IsRun p n start len := by
  constructor
  · rintro ⟨hpos, hle, hall, hbefore, hbehind⟩
    exact ⟨hpos, by omega, hall, hbefore, fun _ => hbehind hend'⟩
  · rintro ⟨hpos, hle, hall, hbefore, hbehind⟩
    exact ⟨hpos, by omega, hall, hbefore, fun _ => hbehind hend⟩

theorem mem_closedRuns : (start, len) ∈ closedRuns p n ↔ IsRun p n start len ∧ start + len ≠ n := by
  induction n with
  | zero =>
      refine ⟨nofun, fun ⟨hrun, _⟩ => ?_⟩
      have hpos := hrun.pos
      have hle := hrun.le
      omega
  | succ n ih =>
      unfold closedRuns
      by_cases hp : p n = true
      · rw [if_pos hp, ih]
        by_cases hend' : start + len = n + 1
        · refine ⟨fun ⟨hrun, _⟩ => ?_, fun ⟨_, hne⟩ => absurd hend' hne⟩
          have hle := hrun.le
          omega
        · by_cases hend : start + len = n
          · refine ⟨fun ⟨_, hne⟩ => absurd hend hne, fun ⟨hrun, _⟩ => ?_⟩
            have hbehind := hrun.behind hend'
            rw [hend, hp] at hbehind
            cases hbehind
          · rw [isRun_succ hend hend', and_iff_left hend, and_iff_left hend']
      · rw [if_neg hp, List.mem_append, ih, mem_lastRun, ← and_or_left]
        by_cases hend' : start + len = n + 1
        · refine ⟨fun ⟨hrun, _⟩ => ?_, fun ⟨_, hne⟩ => absurd hend' hne⟩
          have hle := hrun.le
          omega
        · rw [and_iff_left hend', and_iff_left (by omega)]
          by_cases hend : start + len = n
          · constructor
            · rintro ⟨hpos, hle, hall, hbefore, hbehind⟩
              exact ⟨hpos, by omega, hall, hbefore, fun _ => by rw [hend]; simpa using hp⟩
            · rintro ⟨hpos, hle, hall, hbefore, hbehind⟩
              exact ⟨hpos, by omega, hall, hbefore, fun hne => absurd hend hne⟩
          · exact (isRun_succ hend hend').symm

/-- The list of runs has all runs, and nothing else. -/
theorem mem_runs : (start, len) ∈ runs p n ↔ IsRun p n start len := by
  unfold runs
  rw [List.mem_append, mem_closedRuns, mem_lastRun, ← and_or_left]
  exact and_iff_left (ne_or_eq _ _)

/-- Each run ends before the next begins. -/
theorem runs_ascending : (runs p n).Pairwise fun r s => r.1 + r.2 < s.1 := by
  have hlast : ∀ m, (lastRun p m).Pairwise fun r s => r.1 + r.2 < s.1 := by
    intro m
    unfold lastRun
    split
    · exact List.Pairwise.nil
    · exact List.pairwise_singleton _ _
  have hcross : ∀ m, ∀ r ∈ closedRuns p m, ∀ s ∈ lastRun p m, r.1 + r.2 < s.1 := by
    rintro m ⟨a, l⟩ hr ⟨b, k⟩ hs
    obtain ⟨hrun, hend⟩ := mem_closedRuns.mp hr
    obtain ⟨hrun', hend'⟩ := mem_lastRun.mp hs
    have hbehind := hrun.behind hend
    have hle := hrun.le
    simp only
    by_contra hlt
    have hall := hrun'.all (a + l - b) (by omega)
    rw [show b + (a + l - b) = a + l by omega, hbehind] at hall
    cases hall
  have hclosed : (closedRuns p n).Pairwise fun r s => r.1 + r.2 < s.1 := by
    induction n with
    | zero => exact List.Pairwise.nil
    | succ n ih =>
        unfold closedRuns
        split
        · exact ih
        · exact List.pairwise_append.mpr ⟨ih, hlast n, hcross n⟩
  exact List.pairwise_append.mpr ⟨hclosed, hlast n, hcross n⟩

/-! ### From one cell to the next -/

/-- A cell without the property adds no run. -/
theorem runs_succ_of_not (hp : p n = false) : runs p (n + 1) = runs p n := by
  have hclosed : closedRuns p (n + 1) = runs p n := by simp [closedRuns, runs, hp]
  have hlast : lastRun p (n + 1) = [] := by simp [lastRun, openRun, hp]
  rw [runs, hclosed, hlast, List.append_nil]

theorem closedRuns_add {k : Nat} (hall : ∀ j < k, p (n + j) = true) : closedRuns p (n + k) = closedRuns p n := by
  induction k with
  | zero => rfl
  | succ k ih =>
      have hp := hall k (Nat.lt_succ_self k)
      rw [← ih fun j hj => hall j (Nat.lt_succ_of_lt hj), ← Nat.add_assoc, closedRuns, if_pos hp]

theorem openRun_add {k : Nat} (hopen : openRun p n = 0) (hall : ∀ j < k, p (n + j) = true) : openRun p (n + k) = k := by
  induction k with
  | zero => exact hopen
  | succ k ih =>
      have hp := hall k (Nat.lt_succ_self k)
      rw [← Nat.add_assoc, openRun, if_pos hp, ih fun j hj => hall j (Nat.lt_succ_of_lt hj)]

/-- Cells behind which nothing is open start a run. -/
theorem runs_add {k : Nat} (hk : 0 < k) (hopen : openRun p n = 0) (hall : ∀ j < k, p (n + j) = true) :
    runs p (n + k) = runs p n ++ [(n, k)] := by
  have hnone : lastRun p n = [] := if_pos hopen
  have hlast : lastRun p (n + k) = [(n, k)] := by
    unfold lastRun
    rw [openRun_add hopen hall, if_neg (Nat.ne_of_gt hk), Nat.add_sub_cancel]
  rw [runs, runs, closedRuns_add hall, hlast, hnone, List.append_nil]

theorem runs_length_mono {m : Nat} (h : m ≤ n) : (runs p m).length ≤ (runs p n).length := by
  induction n with
  | zero => exact Nat.le_of_eq (by rw [Nat.le_zero.mp h])
  | succ n ih =>
      rcases Nat.lt_succ_iff_lt_or_eq.mp (Nat.lt_succ_of_le h) with hlt | rfl
      · refine Nat.le_trans (ih (by omega)) ?_
        by_cases hp : p n = true
        · have hlast : (lastRun p n).length ≤ (lastRun p (n + 1)).length := by
            have hopen : openRun p (n + 1) = openRun p n + 1 := if_pos hp
            unfold lastRun
            rw [hopen, if_neg (Nat.succ_ne_zero _)]
            split <;> simp
          have hclosed : closedRuns p (n + 1) = closedRuns p n := if_pos hp
          rw [runs, runs, hclosed, List.length_append, List.length_append]
          omega
        · exact Nat.le_of_eq (by rw [runs_succ_of_not (by simpa using hp)])
      · exact Nat.le_refl _

/-- A cell with the property is in one of the runs. -/
theorem exists_run {i : Nat} (hi : i < n) (hp : p i = true) : ∃ r ∈ runs p n, r.1 ≤ i ∧ i < r.1 + r.2 := by
  induction n with
  | zero => exact absurd hi (Nat.not_lt_zero i)
  | succ n ih =>
      by_cases hn : p n = true
      · have hopen : openRun p (n + 1) = openRun p n + 1 := if_pos hn
        have hclosed : closedRuns p (n + 1) = closedRuns p n := if_pos hn
        have hle := @openRun_le p n
        have hlast : (n - openRun p n, openRun p n + 1) ∈ runs p (n + 1) := by
          apply List.mem_append_right
          unfold lastRun
          rw [hopen, if_neg (Nat.succ_ne_zero _), Nat.add_sub_add_right]
          exact List.mem_singleton_self _
        by_cases hin : n - openRun p n ≤ i
        · exact ⟨_, hlast, hin, by simp only; omega⟩
        · obtain ⟨r, hr, hle', hlt⟩ := ih (by omega)
          refine ⟨r, ?_, hle', hlt⟩
          rcases List.mem_append.mp hr with hr | hr
          · apply List.mem_append_left
            rwa [hclosed]
          · unfold lastRun at hr
            split at hr
            · cases hr
            · cases List.mem_singleton.mp hr
              omega
      · have hne : i ≠ n := by
          rintro rfl
          exact hn hp
        rw [runs_succ_of_not (by simpa using hn)]
        exact ih (by omega)

end MaximalRuns
