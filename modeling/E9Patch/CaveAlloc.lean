import E9Patch.BinPatchModel

/-!
Allocation from the caves of a finder: the smallest cave that has room gives away its start. What is free
only shrinks, and an allocation that finds no room changes nothing.
-/

namespace E9Patch

/-! ### The cave that is chosen -/

/-- The choice is the one so far, or a cave that has room. -/
theorem bestCave_cases {size : Nat} {caves : List E9CodeCave} {i j : Nat} {best : Option (Nat × E9CodeCave)}
    {cave : E9CodeCave} (h : bestCave size caves i best = some (j, cave)) :
    best = some (j, cave) ∨ i ≤ j ∧ caves[j - i]? = some cave ∧ size ≤ cave.size := by
  induction caves generalizing i best with
  | nil => exact Or.inl h
  | cons c caves ih =>
      unfold bestCave at h
      rcases ih h with h | ⟨hij, hget, hsize⟩
      · split at h
        · rename_i hfit
          cases h
          exact Or.inr ⟨Nat.le_refl _, by simp, hfit.1⟩
        · exact Or.inl h
      · refine Or.inr ⟨by omega, ?_, hsize⟩
        rw [show j - i = j - (i + 1) + 1 by omega, List.getElem?_cons_succ]
        exact hget

theorem bestCave_get {size : Nat} {caves : List E9CodeCave} {i : Nat} {cave : E9CodeCave}
    (h : bestCave size caves 0 none = some (i, cave)) : caves[i]? = some cave ∧ size ≤ cave.size := by
  rcases bestCave_cases h with hnone | ⟨-, hget, hsize⟩
  · cases hnone
  · exact ⟨hget, hsize⟩

/-- There is a choice if there was one, or some cave has room. -/
theorem bestCave_none {size : Nat} {caves : List E9CodeCave} {i : Nat} {best : Option (Nat × E9CodeCave)} :
    bestCave size caves i best = none ↔ best = none ∧ ∀ cave ∈ caves, cave.size < size := by
  induction caves generalizing i best with
  | nil => simp [bestCave]
  | cons c caves ih =>
      unfold bestCave
      rw [ih, List.forall_mem_cons]
      cases best with
      | none =>
          simp only [Option.all_none, and_true]
          by_cases hfit : c.size ≥ size
          · simp [hfit, Nat.not_lt.mpr hfit]
          · simp [hfit, Nat.lt_of_not_ge hfit]
      | some b =>
          simp only [Option.all_some]
          split <;> simp

/-- No cave that has room is smaller than the choice. -/
theorem bestCave_least {size : Nat} {caves : List E9CodeCave} {i j : Nat} {best : Option (Nat × E9CodeCave)}
    {cave : E9CodeCave} (h : bestCave size caves i best = some (j, cave)) :
    (∀ b, best = some b → cave.size ≤ b.2.size) ∧ ∀ c ∈ caves, size ≤ c.size → cave.size ≤ c.size := by
  induction caves generalizing i best with
  | nil =>
      refine ⟨fun b hb => ?_, List.forall_mem_nil _⟩
      rw [hb] at h
      cases h
      exact Nat.le_refl _
  | cons c caves ih =>
      unfold bestCave at h
      obtain ⟨hbest, hrest⟩ := ih h
      by_cases hfit : c.size ≥ size ∧ (best.all fun b => decide (c.size < b.2.size)) = true
      · rw [if_pos hfit] at hbest
        have hc := hbest (i, c) rfl
        refine ⟨fun b hb => ?_, List.forall_mem_cons.mpr ⟨fun _ => hc, hrest⟩⟩
        have hlt := hfit.2
        rw [hb] at hlt
        simp only [Option.all_some, decide_eq_true_eq] at hlt
        simp only at hc
        omega
      · rw [if_neg hfit] at hbest
        refine ⟨hbest, List.forall_mem_cons.mpr ⟨fun hsize => ?_, hrest⟩⟩
        cases best with
        | none => exact absurd ⟨hsize, rfl⟩ hfit
        | some b =>
            have hb := hbest b rfl
            have hge : ¬c.size < b.2.size := fun hlt => hfit ⟨hsize, by simpa using hlt⟩
            omega

/-! ### Allocation -/

/-- There is no cave with room. -/
def NoRoom (f : E9CaveFinder) (size : Nat) : Prop := ∀ cave ∈ f.caves, cave.size < size

/-- The cave number `i` gives `size` bytes away. -/
structure Gives (f : E9CaveFinder) (size i : Nat) (cave : E9CodeCave) : Prop where
  get : f.caves[i]? = some cave
  room : size ≤ cave.size
  least : ∀ c ∈ f.caves, size ≤ c.size → cave.size ≤ c.size
  alloc : e9_caves_alloc (some f) size = (cave.address, some { f with caves := f.caves.set i (cave.take size) })

theorem caves_alloc_cases (f : E9CaveFinder) (size : Nat) :
    NoRoom f size ∧ e9_caves_alloc (some f) size = (0, some f) ∨ ∃ i cave, Gives f size i cave := by
  cases hbest : bestCave size f.caves 0 none with
  | none =>
      refine Or.inl ⟨(bestCave_none.mp hbest).2, ?_⟩
      simp only [e9_caves_alloc, hbest]
  | some b =>
      obtain ⟨i, cave⟩ := b
      obtain ⟨hget, hroom⟩ := bestCave_get hbest
      exact Or.inr ⟨i, cave, hget, hroom, (bestCave_least hbest).2, by simp only [e9_caves_alloc, hbest]⟩

theorem Gives.lt {f : E9CaveFinder} {size i : Nat} {cave : E9CodeCave} (h : Gives f size i cave) : i < f.caves.length :=
  (List.getElem?_eq_some_iff.mp h.get).1

/-- All that is free. -/
def E9CaveFinder.free (f : E9CaveFinder) : Nat := (f.caves.map E9CodeCave.size).sum

theorem sum_set {l : List E9CodeCave} {i : Nat} {c c' : E9CodeCave} (h : l[i]? = some c) (hle : c'.size ≤ c.size) :
    ((l.set i c').map E9CodeCave.size).sum + (c.size - c'.size) = (l.map E9CodeCave.size).sum := by
  induction l generalizing i with
  | nil => cases h
  | cons d l ih =>
      cases i with
      | zero =>
          cases Option.some.inj h
          simp only [List.set_cons_zero, List.map_cons, List.sum_cons]
          omega
      | succ i =>
          have hrest := ih (i := i) (by simpa using h)
          simp only [List.set_cons_succ, List.map_cons, List.sum_cons]
          omega

/-- An allocation makes less of what is free by what it gives. -/
theorem Gives.free {f : E9CaveFinder} {size i : Nat} {cave : E9CodeCave} (h : Gives f size i cave) :
    E9CaveFinder.free { f with caves := f.caves.set i (cave.take size) } + size = f.free := by
  have hroom := h.room
  have hsum := @sum_set f.caves i cave (cave.take size) h.get (by simp only [E9CodeCave.take]; omega)
  unfold E9CaveFinder.free
  simp only [E9CodeCave.take] at hsum ⊢
  omega

end E9Patch
