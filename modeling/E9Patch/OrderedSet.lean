import Mathlib.Algebra.Order.Ring.Int
import Mathlib.Order.RelClasses
import Mathlib.Data.List.Induction

/-!
Sets that are ordered by a comparison, such as C++'s `std::set`: an element is not inserted if there is an
equivalent one, which is then found in its place. A set is the list of its elements in ascending order.
-/

namespace OrderedSet

variable {α : Type} (lt : α → α → Bool)

/-- Neither of the two is less. -/
def equiv (a b : α) : Bool := !lt a b && !lt b a

/-- Insert `x`. The result is the set, and the element of it that is equivalent to `x`. -/
def insert : List α → α → List α × α
  | [], x => ([x], x)
  | y :: s, x =>
    if lt x y then (x :: y :: s, x)
    else if lt y x then (y :: (insert s x).1, (insert s x).2)
    else (y :: s, y)

/-- The set after some insertions. -/
def build (xs : List α) : List α := xs.foldl (fun s x => (insert lt s x).1) []

theorem build_concat (xs : List α) (x : α) : build lt (xs ++ [x]) = (insert lt (build lt xs) x).1 := by
  rw [build, List.foldl_append]
  rfl

variable {lt}

/-- There are no other elements in the set than before, but the inserted one. -/
theorem mem_insert {s : List α} {x y : α} (h : y ∈ (insert lt s x).1) : y = x ∨ y ∈ s := by
  induction s with
  | nil => exact Or.inl (List.mem_singleton.mp h)
  | cons z s ih =>
      rw [insert] at h
      split at h
      · exact List.mem_cons.mp h
      · split at h
        · rcases List.mem_cons.mp h with rfl | h
          · exact Or.inr List.mem_cons_self
          · exact (ih h).imp_right (List.mem_cons_of_mem _)
        · exact Or.inr h

theorem equiv_iff {a b : α} : equiv lt a b = true ↔ ¬lt a b = true ∧ ¬lt b a = true := by
  simp only [equiv, Bool.and_eq_true, Bool.not_eq_true', Bool.not_eq_true]

theorem equiv_symm {a b : α} (h : equiv lt a b = true) : equiv lt b a = true :=
  equiv_iff.mpr (equiv_iff.mp h).symm

section
variable [hlt : IsStrictWeakOrder α (fun a b => lt a b = true)]

theorem less_irrefl (a : α) : ¬lt a a = true := hlt.irrefl a

theorem less_trans {a b c : α} (h : lt a b = true) (h' : lt b c = true) : lt a c = true := hlt.trans a b c h h'

theorem equiv_refl (a : α) : equiv lt a a = true := equiv_iff.mpr ⟨less_irrefl a, less_irrefl a⟩

theorem equiv_trans {a b c : α} (h : equiv lt a b = true) (h' : equiv lt b c = true) : equiv lt a c = true :=
  equiv_iff.mpr (hlt.incomp_trans a b c (equiv_iff.mp h) (equiv_iff.mp h'))

/-- Equivalent elements have the same equivalents. -/
theorem equiv_eq {a b : α} (h : equiv lt a b = true) : equiv lt a = equiv lt b := by
  funext c
  rw [Bool.eq_iff_iff]
  exact ⟨equiv_trans (equiv_symm h), equiv_trans h⟩

/-- Either there is an equivalent element, which is the result, or `x` is a new element. -/
theorem insert_cases {s : List α} (hs : s.Pairwise fun a b => lt a b = true) (x : α) :
    (∃ y ∈ s, equiv lt x y = true ∧ insert lt s x = (s, y)) ∨
      ((∀ y ∈ s, ¬equiv lt x y = true) ∧ (insert lt s x).2 = x ∧
        (insert lt s x).1.Pairwise (fun a b => lt a b = true) ∧
        ∀ z, z ∈ (insert lt s x).1 ↔ z = x ∨ z ∈ s) := by
  induction s with
  | nil =>
      refine Or.inr ⟨fun y hy => (List.not_mem_nil hy).elim, rfl, List.pairwise_singleton _ _, fun z => ?_⟩
      simp only [insert, List.mem_singleton, List.not_mem_nil, or_false]
  | cons y s ih =>
      obtain ⟨hy, hs'⟩ := List.pairwise_cons.mp hs
      by_cases hxy : lt x y = true
      · have hx : ∀ z ∈ y :: s, lt x z = true := by
          intro z hz
          rcases List.mem_cons.mp hz with rfl | hz
          · exact hxy
          · exact less_trans hxy (hy z hz)
        simp only [insert, if_pos hxy]
        exact Or.inr ⟨fun z hz he => (equiv_iff.mp he).1 (hx z hz), trivial, List.pairwise_cons.mpr ⟨hx, hs⟩,
          fun z => List.mem_cons⟩
      · by_cases hyx : lt y x = true
        · simp only [insert, if_neg hxy, if_pos hyx]
          rcases ih hs' with ⟨z, hz, he, hins⟩ | ⟨hnone, hres, hsorted, hmem⟩
          · exact Or.inl ⟨z, List.mem_cons_of_mem _ hz, he, by rw [hins]⟩
          · refine Or.inr ⟨fun z hz he => ?_, hres, List.pairwise_cons.mpr ⟨fun z hz => ?_, hsorted⟩, fun z => ?_⟩
            · rcases List.mem_cons.mp hz with rfl | hz
              · exact (equiv_iff.mp he).2 hyx
              · exact hnone z hz he
            · rcases (hmem z).mp hz with rfl | hz
              · exact hyx
              · exact hy z hz
            · rw [List.mem_cons, List.mem_cons, hmem]
              exact or_left_comm
        · refine Or.inl ⟨y, List.mem_cons_self, equiv_iff.mpr ⟨hxy, hyx⟩, ?_⟩
          simp only [insert, if_neg hxy, if_neg hyx]

/-- A set is in ascending order, and holds of all equivalent insertions the first. -/
theorem build_spec (xs : List α) : (build lt xs).Pairwise (fun a b => lt a b = true) ∧
    ∀ y, y ∈ build lt xs ↔ xs.find? (equiv lt y) = some y := by
  induction xs using List.reverseRecOn with
  | nil => exact ⟨List.Pairwise.nil, fun y => by simp [build]⟩
  | append_singleton xs x ih =>
      obtain ⟨hsorted, hmem⟩ := ih
      rw [build_concat]
      have hfound : ∀ {w}, w ∈ build lt xs → equiv lt x w = true → xs.find? (equiv lt x) = some w := by
        intro w hw he
        rw [equiv_eq he]
        exact (hmem w).mp hw
      rcases insert_cases hsorted x with ⟨w, hw, he, hins⟩ | ⟨hnone, -, hsorted', hmem'⟩
      · rw [hins]
        refine ⟨hsorted, fun y => ?_⟩
        rw [hmem, List.find?_append]
        constructor
        · intro hy
          rw [hy, Option.some_or]
        · intro hy
          cases hfirst : xs.find? (equiv lt y) with
          | some v =>
              rw [hfirst, Option.some_or] at hy
              exact hy
          | none =>
              rw [hfirst, Option.none_or] at hy
              obtain rfl : x = y := List.mem_singleton.mp (List.mem_of_find?_eq_some hy) ▸ rfl
              rw [hfound hw he] at hfirst
              cases hfirst
      · refine ⟨hsorted', fun y => ?_⟩
        have hfresh : xs.find? (equiv lt x) = none := by
          cases hfirst : xs.find? (equiv lt x) with
          | none => rfl
          | some w =>
              have he : equiv lt x w = true := List.find?_some hfirst
              have hw : w ∈ build lt xs := by
                rw [hmem, ← equiv_eq he]
                exact hfirst
              exact absurd he (hnone w hw)
        rw [hmem', hmem, List.find?_append]
        constructor
        · rintro (rfl | hy)
          · rw [hfresh, Option.none_or, List.find?_singleton, if_pos (equiv_refl y)]
          · rw [hy, Option.some_or]
        · intro hy
          cases hfirst : xs.find? (equiv lt y) with
          | some v =>
              rw [hfirst, Option.some_or] at hy
              exact Or.inr hy
          | none =>
              rw [hfirst, Option.none_or] at hy
              exact Or.inl (List.mem_singleton.mp (List.mem_of_find?_eq_some hy))

/-- What is found for `x` is the first of the equivalent insertions, `x` itself included. -/
theorem insert_build (xs : List α) (x : α) :
    (xs ++ [x]).find? (equiv lt x) = some (insert lt (build lt xs) x).2 := by
  obtain ⟨hsorted, hmem⟩ := @build_spec α lt _ xs
  rw [List.find?_append]
  rcases insert_cases hsorted x with ⟨w, hw, he, hins⟩ | ⟨hnone, hres, -, -⟩
  · rw [hins, equiv_eq he, (hmem w).mp hw, Option.some_or]
  · rw [hres]
    cases hfirst : xs.find? (equiv lt x) with
    | none => rw [Option.none_or, List.find?_singleton, if_pos (equiv_refl x)]
    | some w =>
        have he : equiv lt x w = true := List.find?_some hfirst
        have hw : w ∈ build lt xs := by
          rw [hmem, ← equiv_eq he]
          exact hfirst
        exact absurd he (hnone w hw)

end

/-- A comparison by a key in a linear order is a strict weak order. -/
theorem strictWeakOrder_of_key {κ : Type} [LinearOrder κ] (key : α → κ)
    (h : ∀ a b, lt a b = true ↔ key a < key b) : IsStrictWeakOrder α (fun a b => lt a b = true) where
  irrefl a := by rw [h]; exact lt_irrefl _
  trans a b c := by
    rw [h, h, h]
    exact lt_trans
  incomp_trans a b c := by
    rw [h, h, h, h, h, h, not_lt, not_lt, not_lt, not_lt, not_lt, not_lt]
    rintro ⟨h1, h2⟩ ⟨h3, h4⟩
    exact ⟨h3.trans h1, h2.trans h4⟩

theorem equiv_iff_key {κ : Type} [LinearOrder κ] {key : α → κ} (h : ∀ a b, lt a b = true ↔ key a < key b)
    {a b : α} : equiv lt a b = true ↔ key a = key b := by
  rw [equiv_iff, h, h, not_lt, not_lt]
  exact ⟨fun h => le_antisymm h.2 h.1, fun h => ⟨h.ge, h.le⟩⟩

/-! ### Comparisons that may fail -/

section
variable {ε : Type} (cmp : α → α → Except ε Bool)

/-- Insert `x`, if all comparisons on the way return. -/
def tryInsert : List α → α → Except ε (List α × α)
  | [], x => .ok ([x], x)
  | y :: s, x => do
    let less ← cmp x y
    if less then .ok (x :: y :: s, x)
    else do
      let greater ← cmp y x
      if greater then do
        let r ← tryInsert s x
        .ok (y :: r.1, r.2)
      else .ok (y :: s, y)

/-- The set after some insertions, if they all return. -/
def tryBuild (xs : List α) : Except ε (List α) := xs.foldlM (fun s x => (tryInsert cmp s x).map (·.1)) []

theorem tryBuild_concat (xs : List α) (x : α) :
    tryBuild cmp (xs ++ [x]) = (tryBuild cmp xs).bind fun s => (tryInsert cmp s x).map (·.1) := by
  rw [tryBuild, List.foldlM_append]
  show (tryBuild cmp xs >>= fun s => List.foldlM _ s [x]) = _
  congr 1
  funext s
  rw [List.foldlM_cons]
  cases tryInsert cmp s x <;> rfl

/-- A comparison that is an order, but for the elements that clash, where it fails. Elements that clash with `x` are
together: whatever is below one of them, and does not clash with `x`, is below `x`. -/
structure FailsOn (lt : α → α → Bool) (clash : α → α → Prop) (e : ε) : Prop where
  fails : ∀ {a b}, clash a b → cmp a b = .error e
  returns : ∀ {a b}, ¬clash a b → cmp a b = .ok (lt a b)
  symm : ∀ {a b}, clash a b → clash b a
  below : ∀ {x y z}, clash x y → ¬clash x z → lt z y = true → lt z x = true
  congr : ∀ {x y z}, equiv lt x y = true → clash x z → clash y z

namespace FailsOn

variable {cmp} {lt : α → α → Bool} {clash : α → α → Prop} {e : ε} (h : FailsOn cmp lt clash e)
include h

theorem tryInsert_ok {s : List α} {x : α} (hs : ∀ y ∈ s, ¬clash x y) : tryInsert cmp s x = .ok (insert lt s x) := by
  induction s with
  | nil => rfl
  | cons y s ih =>
      obtain ⟨hy, hs⟩ := List.forall_mem_cons.mp hs
      have hy' : ¬clash y x := fun hclash => hy (h.symm hclash)
      rw [tryInsert, h.returns hy, h.returns hy', ih hs, insert]
      show (if lt x y = true then _ else _) = _
      split
      · rfl
      · show (if lt y x = true then _ else _) = _
        split <;> rfl

variable [hlt : IsStrictWeakOrder α (fun a b => lt a b = true)]

/-- The search comes to an element that clashes, if there is one: it does not stop below it. -/
theorem tryInsert_error {s : List α} (hs : s.Pairwise fun a b => lt a b = true) {x y : α} (hy : y ∈ s)
    (hclash : clash x y) : tryInsert cmp s x = .error e := by
  induction s with
  | nil => exact absurd hy List.not_mem_nil
  | cons z s ih =>
      obtain ⟨hz, hs⟩ := List.pairwise_cons.mp hs
      rw [tryInsert]
      by_cases hxz : clash x z
      · rw [h.fails hxz]
        rfl
      · have hmem : y ∈ s := (List.mem_cons.mp hy).resolve_left fun heq => hxz (heq ▸ hclash)
        have hless : lt z x = true := h.below hclash hxz (hz y hmem)
        have hnot : lt x z = false := Bool.eq_false_iff.mpr fun hless' => less_irrefl z (less_trans hless hless')
        rw [h.returns hxz, h.returns fun hzx => hxz (h.symm hzx), hless, hnot, ih hs hmem]
        rfl

theorem tryBuild_ok {xs : List α} (hxs : xs.Pairwise fun a b => ¬clash a b) : tryBuild cmp xs = .ok (build lt xs) := by
  induction xs using List.reverseRecOn with
  | nil => rfl
  | append_singleton xs x ih =>
      obtain ⟨hxs, -, hx⟩ := List.pairwise_append.mp hxs
      have hfree : ∀ y ∈ build lt xs, ¬clash x y := by
        intro y hy hclash
        have hmem := List.mem_of_find?_eq_some (((build_spec xs).2 y).mp hy)
        exact hx y hmem x (List.mem_singleton_self x) (h.symm hclash)
      rw [tryBuild_concat, ih hxs, build_concat]
      show (tryInsert cmp (build lt xs) x).map _ = _
      rw [h.tryInsert_ok hfree]
      rfl

/-- Every element has an equivalent one in the set, which clashes with what the element clashes with. -/
theorem tryInsert_build_error {xs : List α} {x y : α} (hy : y ∈ xs) (hclash : clash x y) :
    tryInsert cmp (build lt xs) x = .error e := by
  obtain ⟨hsorted, hmem⟩ := @build_spec α lt _ xs
  obtain ⟨w, hw⟩ : ∃ w, xs.find? (equiv lt y) = some w :=
    Option.isSome_iff_exists.mp (List.find?_isSome.mpr ⟨y, hy, equiv_refl y⟩)
  have heq : equiv lt y w = true := List.find?_some hw
  refine h.tryInsert_error hsorted ((hmem w).mpr ?_) (h.symm (h.congr heq (h.symm hclash)))
  rw [← equiv_eq heq]
  exact hw

theorem tryBuild_error {xs : List α} (hxs : ¬xs.Pairwise fun a b => ¬clash a b) : tryBuild cmp xs = .error e := by
  induction xs using List.reverseRecOn with
  | nil => exact absurd List.Pairwise.nil hxs
  | append_singleton xs x ih =>
      rw [tryBuild_concat]
      by_cases hpair : xs.Pairwise fun a b => ¬clash a b
      · obtain ⟨y, hy, hclash⟩ : ∃ y ∈ xs, clash y x := by
          by_contra hnone
          refine hxs (List.pairwise_append.mpr ⟨hpair, List.pairwise_singleton _ _, fun y hy z hz hclash => ?_⟩)
          rw [List.mem_singleton.mp hz] at hclash
          exact hnone ⟨y, hy, hclash⟩
        rw [h.tryBuild_ok hpair]
        show (tryInsert cmp (build lt xs) x).map _ = _
        rw [h.tryInsert_build_error hy (h.symm hclash)]
        rfl
      · rw [ih hpair]
        rfl

/-- The insertions return exactly if no two elements clash, and then are those into the set of the order. -/
theorem tryInsert_tryBuild (xs : List α) (x : α) (r : List α × α) :
    ((tryBuild cmp xs).bind fun s => tryInsert cmp s x) = .ok r ↔
      (xs ++ [x]).Pairwise (fun a b => ¬clash a b) ∧ insert lt (build lt xs) x = r := by
  by_cases hpair : xs.Pairwise fun a b => ¬clash a b
  · rw [h.tryBuild_ok hpair]
    show tryInsert cmp (build lt xs) x = _ ↔ _
    by_cases hclash : ∃ y ∈ xs, clash x y
    · obtain ⟨y, hy, hclash⟩ := hclash
      rw [h.tryInsert_build_error hy hclash]
      refine ⟨nofun, fun hr => ?_⟩
      exact absurd (h.symm hclash) ((List.pairwise_append.mp hr.1).2.2 y hy x (List.mem_singleton_self x))
    · have hfree : ∀ y ∈ build lt xs, ¬clash x y := fun y hy hyx =>
        hclash ⟨y, List.mem_of_find?_eq_some (((build_spec xs).2 y).mp hy), hyx⟩
      rw [h.tryInsert_ok hfree, Except.ok.injEq]
      refine ⟨fun hr => ⟨List.pairwise_append.mpr ⟨hpair, List.pairwise_singleton _ _, ?_⟩, hr⟩, fun hr => hr.2⟩
      intro y hy z hz hyz
      rw [List.mem_singleton.mp hz] at hyz
      exact hclash ⟨y, hy, h.symm hyz⟩
  · rw [h.tryBuild_error hpair]
    exact ⟨nofun, fun hr => absurd (List.pairwise_append.mp hr.1).1 hpair⟩

end FailsOn

end

end OrderedSet
