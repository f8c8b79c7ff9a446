import Mathlib.Algebra.Order.Ring.Int
import Mathlib.Order.Basic
import Mathlib.Order.Defs.LinearOrder
import Mathlib.Data.List.Induction
import Mathlib.Data.List.Pairwise
import Mathlib.Data.List.TakeWhile
import Mathlib.Tactic.Common

/-!
Maps in the order of their keys, such as C++'s `std::map`, as the list of their entries. There is one way to
change an entry, `alter`: insertion keeps the value that is there, and a new key gets its place in the order.
-/

namespace OrderedMap

variable {κ α : Type} [LinearOrder κ]

/-- Replace the value of `k`, or insert it. -/
def alter (f : Option α → α) : List (κ × α) → κ → List (κ × α)
  | [], k => [(k, f none)]
  | (k', v) :: m, k =>
    if k < k' then (k, f none) :: (k', v) :: m
    else if k' < k then (k', v) :: alter f m k
    else (k', f (some v)) :: m

/-- Insert a value unless the key has one. -/
def insert (m : List (κ × α)) (k : κ) (v : α) : List (κ × α) := alter (fun old => old.getD v) m k

/-- The value of a key. -/
def find : List (κ × α) → κ → Option α
  | [], _ => none
  | (k', v) :: m, k => if k' = k then some v else find m k

/-- In the order of the keys. -/
def Sorted (m : List (κ × α)) : Prop := m.Pairwise fun a b => a.1 < b.1

theorem find_eq_none {m : List (κ × α)} {k : κ} : find m k = none ↔ ∀ e ∈ m, e.1 ≠ k := by
  induction m with
  | nil => simp [find]
  | cons e m ih =>
      rw [find, List.forall_mem_cons, ← ih]
      split_ifs with h
      · simp [h]
      · simp [h]

theorem mem_of_find {m : List (κ × α)} {k : κ} {v : α} (h : find m k = some v) : (k, v) ∈ m := by
  induction m with
  | nil => cases h
  | cons e m ih =>
      rw [find] at h
      split_ifs at h with hk
      · obtain rfl := Option.some.inj h
        rw [← hk]
        exact List.mem_cons_self
      · exact List.mem_cons_of_mem _ (ih h)

/-- In a map every entry is found. -/
theorem Sorted.find_iff {m : List (κ × α)} (hm : Sorted m) {k : κ} {v : α} :
    find m k = some v ↔ (k, v) ∈ m := by
  refine ⟨mem_of_find, fun h => ?_⟩
  induction m with
  | nil => cases h
  | cons e m ih =>
      obtain ⟨he, hm⟩ := List.pairwise_cons.mp hm
      rw [find]
      rcases List.mem_cons.mp h with rfl | h
      · rw [if_pos rfl]
      · rw [if_neg (he _ h).ne]
        exact ih hm h

theorem mem_alter {f : Option α → α} {m : List (κ × α)} {k : κ} {e : κ × α} (h : e ∈ alter f m k) :
    e.1 = k ∨ e ∈ m := by
  induction m with
  | nil =>
      rw [alter, List.mem_singleton] at h
      exact Or.inl (h ▸ rfl)
  | cons e' m ih =>
      rw [alter] at h
      split_ifs at h with h1 h2
      · rcases List.mem_cons.mp h with rfl | h
        · exact Or.inl rfl
        · exact Or.inr h
      · rcases List.mem_cons.mp h with rfl | h
        · exact Or.inr List.mem_cons_self
        · exact (ih h).imp_right (List.mem_cons_of_mem _)
      · rcases List.mem_cons.mp h with rfl | h
        · exact Or.inl (le_antisymm (not_lt.mp h1) (not_lt.mp h2))
        · exact Or.inr (List.mem_cons_of_mem _ h)

theorem sorted_alter {f : Option α → α} {m : List (κ × α)} (hm : Sorted m) (k : κ) : Sorted (alter f m k) := by
  induction m with
  | nil => exact List.pairwise_singleton _ _
  | cons e m ih =>
      obtain ⟨he, hm'⟩ := List.pairwise_cons.mp hm
      rw [alter]
      split_ifs with h1 h2
      · refine List.pairwise_cons.mpr ⟨fun b hb => ?_, hm⟩
        rcases List.mem_cons.mp hb with rfl | hb
        · exact h1
        · exact h1.trans (he b hb)
      · refine List.pairwise_cons.mpr ⟨fun b hb => ?_, ih hm'⟩
        rcases mem_alter hb with hk | hb
        · rw [hk]
          exact h2
        · exact he b hb
      · exact List.pairwise_cons.mpr ⟨he, hm'⟩

theorem find_alter {f : Option α → α} {m : List (κ × α)} (hm : Sorted m) (k k' : κ) :
    find (alter f m k) k' = if k' = k then some (f (find m k)) else find m k' := by
  induction m with
  | nil =>
      simp only [alter, find]
      by_cases h : k' = k
      · rw [if_pos h, if_pos h.symm]
      · rw [if_neg h, if_neg (Ne.symm h)]
  | cons e m ih =>
      obtain ⟨he, hm'⟩ := List.pairwise_cons.mp hm
      rw [alter]
      by_cases h1 : k < e.1
      · rw [if_pos h1, find, find_eq_none (k := k) |>.mpr fun b hb => ?_]
        · by_cases h3 : k' = k
          · rw [if_pos h3.symm, if_pos h3]
          · rw [if_neg (Ne.symm h3), if_neg h3]
        · rcases List.mem_cons.mp hb with rfl | hb
          · exact h1.ne'
          · exact (h1.trans (he b hb)).ne'
      · by_cases h2 : e.1 < k
        · rw [if_neg h1, if_pos h2, find, ih hm', find, find, if_neg h2.ne]
          by_cases h3 : k' = k
          · rw [if_pos h3, if_pos h3, if_neg (h3 ▸ h2.ne)]
          · rw [if_neg h3, if_neg h3]
        · have hk : e.1 = k := le_antisymm (not_lt.mp h1) (not_lt.mp h2)
          rw [if_neg h1, if_neg h2, find, find, find, if_pos hk, hk]
          by_cases h3 : k' = k
          · rw [if_pos h3.symm, if_pos h3]
          · rw [if_neg (Ne.symm h3), if_neg h3, if_neg (Ne.symm h3)]

theorem sorted_insert {m : List (κ × α)} (hm : Sorted m) (k : κ) (v : α) : Sorted (insert m k v) :=
  sorted_alter hm k

theorem find_insert {m : List (κ × α)} (hm : Sorted m) (k : κ) (v : α) (k' : κ) :
    find (insert m k v) k' = if k' = k then some ((find m k).getD v) else find m k' :=
  find_alter hm k k'

/-- A new key gets its place between the smaller and the greater ones. -/
theorem insert_between {xs ys : List (κ × α)} {k : κ} (v : α) (hxs : ∀ e ∈ xs, e.1 < k) (hys : ∀ e ∈ ys, k < e.1) :
    insert (xs ++ ys) k v = xs ++ (k, v) :: ys := by
  induction xs with
  | nil =>
      cases ys with
      | nil => rfl
      | cons e ys => exact if_pos (hys e List.mem_cons_self)
  | cons e xs ih =>
      have he : e.1 < k := hxs e List.mem_cons_self
      rw [List.cons_append, List.cons_append, ← ih fun e he => hxs e (List.mem_cons_of_mem _ he)]
      exact (if_neg he.not_gt).trans (if_pos he)

/-- The entries before the first one whose key is not less than `k`, and the ones from there on. -/
def lowerBound (m : List (κ × α)) (k : κ) : List (κ × α) × List (κ × α) :=
  (m.takeWhile fun e => e.1 < k, m.dropWhile fun e => e.1 < k)

theorem lowerBound_append (m : List (κ × α)) (k : κ) : (lowerBound m k).1 ++ (lowerBound m k).2 = m :=
  List.takeWhile_append_dropWhile

theorem lowerBound_before {m : List (κ × α)} {k : κ} {e : κ × α} (h : e ∈ (lowerBound m k).1) : e.1 < k := by
  have hbefore := List.mem_takeWhile_imp (p := fun e : κ × α => decide (e.1 < k)) h
  exact of_decide_eq_true hbefore

theorem lowerBound_from {m : List (κ × α)} (hm : Sorted m) {k : κ} {e : κ × α} (h : e ∈ (lowerBound m k).2) :
    k ≤ e.1 := by
  induction m with
  | nil => cases h
  | cons a m ih =>
      obtain ⟨ha, hm'⟩ := List.pairwise_cons.mp hm
      rw [lowerBound, List.dropWhile_cons] at h
      dsimp only at h
      split_ifs at h with hlt
      · exact ih hm' h
      · have hk : k ≤ a.1 := not_lt.mp fun hak => hlt (decide_eq_true hak)
        rcases List.mem_cons.mp h with rfl | h
        · exact hk
        · exact hk.trans (ha e h).le

/-! ### Collections -/

section
variable {ε : Type} (key : α → κ) (f : ε → Option α)

/-- The results of `f`, each under its key. -/
def collect (es : List ε) : List (κ × α) :=
  es.foldl (fun m e => match f e with
    | none => m
    | some a => insert m (key a) a) []

theorem collect_concat (es : List ε) (e : ε) : collect key f (es ++ [e]) = match f e with
    | none => collect key f es
    | some a => insert (collect key f es) (key a) a := by
  rw [collect, List.foldl_append]
  rfl

variable {key f}

theorem sorted_collect (es : List ε) : Sorted (collect key f es) := by
  induction es using List.reverseRecOn with
  | nil => exact List.Pairwise.nil
  | append_singleton es e ih =>
      rw [collect_concat]
      cases f e with
      | none => exact ih
      | some a => exact sorted_insert ih _ _

/-- What is collected has its own key, and is a result. -/
theorem collect_mem {es : List ε} {k : κ} {a : α} (h : (k, a) ∈ collect key f es) :
    key a = k ∧ ∃ e ∈ es, f e = some a := by
  induction es using List.reverseRecOn with
  | nil => cases h
  | append_singleton es e ih =>
      have hold : (k, a) ∈ collect key f es → key a = k ∧ ∃ e' ∈ es ++ [e], f e' = some a := by
        intro h
        obtain ⟨hk, e', he', hf⟩ := ih h
        exact ⟨hk, e', List.mem_append_left _ he', hf⟩
      rw [collect_concat] at h
      cases hf : f e with
      | none =>
          rw [hf] at h
          exact hold h
      | some b =>
          rw [hf] at h
          have hfind := (sorted_insert (sorted_collect es) (key b) b).find_iff.mpr h
          rw [find_insert (sorted_collect es)] at hfind
          split_ifs at hfind with hk
          · subst hk
            cases hget : find (collect key f es) (key b) with
            | none =>
                rw [hget] at hfind
                obtain rfl := Option.some.inj hfind
                exact ⟨rfl, e, List.mem_append_right _ List.mem_cons_self, hf⟩
            | some c =>
                rw [hget] at hfind
                obtain rfl := Option.some.inj hfind
                exact hold (mem_of_find hget)
          · exact hold (mem_of_find hfind)

/-- If the keys ascend, all results are collected in their order. -/
theorem collect_ascending {es : List ε} {as : List α} (has : es.map f = as.map some)
    (hkeys : as.Pairwise fun a b => key a < key b) : collect key f es = as.map fun a => (key a, a) := by
  induction es using List.reverseRecOn generalizing as with
  | nil =>
      obtain rfl := List.map_eq_nil_iff.mp has.symm
      rfl
  | append_singleton es e ih =>
      obtain ⟨as, a, rfl⟩ : ∃ as' a, as = as' ++ [a] := by
        rcases List.eq_nil_or_concat as with rfl | ⟨as, a, rfl⟩
        · simp at has
        · exact ⟨as, a, List.concat_eq_append⟩
      rw [List.map_append, List.map_append, List.map_singleton, List.map_singleton] at has
      obtain ⟨h1, h2⟩ := List.append_inj' has rfl
      obtain ⟨g1, -, g2⟩ := List.pairwise_append.mp hkeys
      rw [collect_concat, ih h1 g1, List.singleton_inj.mp h2]
      dsimp only
      rw [List.map_append, List.map_singleton]
      have hbefore : ∀ e ∈ as.map fun a => (key a, a), e.1 < key a := by
        intro e he
        obtain ⟨b, hb, rfl⟩ := List.mem_map.mp he
        exact g2 b hb a List.mem_cons_self
      have hnone : ∀ e ∈ ([] : List (κ × α)), key a < e.1 := fun e he => nomatch he
      have hbehind := insert_between a hbefore hnone
      rwa [List.append_nil] at hbehind

/-- If the key tells the results apart, all of them are collected. -/
theorem collect_spec {es : List ε}
    (hkey : ∀ e ∈ es, ∀ e' ∈ es, ∀ a a', f e = some a → f e' = some a' → key a = key a' → a = a') :
    Sorted (collect key f es) ∧ ∀ k a, (k, a) ∈ collect key f es ↔ key a = k ∧ ∃ e ∈ es, f e = some a := by
  induction es using List.reverseRecOn with
  | nil => exact ⟨List.Pairwise.nil, fun k a => by simp [collect]⟩
  | append_singleton es e ih =>
      obtain ⟨hsorted, hmem⟩ := ih fun e he e' he' =>
        hkey e (List.mem_append_left _ he) e' (List.mem_append_left _ he')
      rw [collect_concat]
      cases hf : f e with
      | none =>
          refine ⟨hsorted, fun k a => ?_⟩
          rw [hmem]
          simp only [List.mem_append, List.mem_singleton, or_and_right, exists_or, exists_eq_left, hf,
            reduceCtorEq, or_false]
      | some b =>
          have hsorted' : Sorted (insert (collect key f es) (key b) b) := sorted_insert hsorted _ _
          refine ⟨hsorted', fun k a => ?_⟩
          show (k, a) ∈ insert (collect key f es) (key b) b ↔ _
          rw [← hsorted'.find_iff, find_insert hsorted]
          simp only [List.mem_append, List.mem_singleton, or_and_right, exists_or, exists_eq_left, hf,
            Option.some.injEq]
          split_ifs with hk
          · rw [hk, Option.some.injEq]
            constructor
            · intro h
              cases hold : find (collect key f es) (key b) with
              | none =>
                  rw [hold, Option.getD_none] at h
                  exact ⟨h ▸ rfl, Or.inr h⟩
              | some c =>
                  rw [hold, Option.getD_some] at h
                  obtain ⟨h1, h2⟩ := (hmem _ _).mp (hsorted.find_iff.mp hold)
                  exact ⟨h ▸ h1, Or.inl (h ▸ h2)⟩
            · rintro ⟨hka, he⟩
              cases hold : find (collect key f es) (key b) with
              | none =>
                  rw [Option.getD_none]
                  rcases he with ⟨e', he', hfa⟩ | he
                  · have := (hsorted.find_iff.mpr ((hmem (key b) a).mpr ⟨hka, e', he', hfa⟩))
                    rw [hold] at this
                    cases this
                  · exact he
              | some c =>
                  rw [Option.getD_some]
                  obtain ⟨h1, e', he', h2⟩ := (hmem _ _).mp (hsorted.find_iff.mp hold)
                  rcases he with ⟨e'', he'', hfa⟩ | he
                  · exact hkey e' (List.mem_append_left _ he') e'' (List.mem_append_left _ he'') c a h2 hfa
                      (h1.trans hka.symm)
                  · rw [← he]
                    exact hkey e' (List.mem_append_left _ he') e (List.mem_append_right _ List.mem_cons_self) c b h2 hf h1
          · rw [hsorted.find_iff, hmem]
            refine and_congr_right fun hka => ?_
            refine (or_iff_left ?_).symm
            rintro rfl
            exact hk hka.symm

end

end OrderedMap
