import Mathlib.Tactic.Common

/-!
Commands that may fail, as functions into `Except ε`. What a command does is stated by a relation
between the state before it and the state after it; a relation that is reflexive and transitive goes
from one round of a loop to the whole loop.
-/

namespace Fallible

variable {ε σ α β : Type}

theorem bind_ok {x : Except ε α} {f : α → Except ε β} {b : β} :
    x >>= f = .ok b ↔ ∃ a, x = .ok a ∧ f a = .ok b := by
  cases x with
  | error e => simp [bind, Except.bind]
  | ok a => simp [bind, Except.bind]

/-- Two commands that begin alike go on from one result. -/
theorem bind_both {γ : Type} {x : Except ε α} {f : α → Except ε β} {g : α → Except ε γ} {b : β} {c : γ}
    (hf : x >>= f = .ok b) (hg : x >>= g = .ok c) : ∃ a, x = .ok a ∧ f a = .ok b ∧ g a = .ok c := by
  obtain ⟨a, ha, hf⟩ := bind_ok.mp hf
  obtain ⟨a', ha', hg⟩ := bind_ok.mp hg
  obtain rfl := Except.ok.inj (ha.symm.trans ha')
  exact ⟨a, ha, hf, hg⟩

theorem map_ok {x : Except ε α} {f : α → β} {b : β} :
    x.map f = .ok b ↔ ∃ a, x = .ok a ∧ f a = b := by
  cases x <;> simp [Except.map]

@[simp] theorem pure_ok {a b : α} : (pure a : Except ε α) = .ok b ↔ a = b := by
  simp [pure, Except.pure]

/-- The rule for a loop: what every round respects, the loop does. -/
theorem foldlM_rel {R : σ → σ → Prop} (hrefl : ∀ s, R s s)
    (htrans : ∀ {s t u}, R s t → R t u → R s u) {f : σ → α → Except ε σ} {l : List α}
    (hstep : ∀ a ∈ l, ∀ {s t}, f s a = .ok t → R s t) {s t : σ} (h : l.foldlM f s = .ok t) :
    R s t := by
  induction l generalizing s with
  | nil =>
      obtain rfl : s = t := by simpa using h
      exact hrefl s
  | cons a l ih =>
      rw [List.foldlM_cons, bind_ok] at h
      obtain ⟨u, h1, h2⟩ := h
      exact htrans (hstep a (by simp) h1) (ih (fun b hb => hstep b (by simp [hb])) h2)

/-- A loop whose rounds each work on a cell of their own: every cell is as its round leaves it, and the
others are untouched. `K` is what the rounds need of the rest of the state. -/
theorem foldlM_cells {κ γ : Type} {cell : σ → κ → γ} (pos : α → κ) (Φ : α → γ → γ → Prop)
    (K : σ → Prop) {f : σ → α → Except ε σ} {l : List α} (hnodup : (l.map pos).Nodup)
    (hstep : ∀ a ∈ l, ∀ {s t}, K s → f s a = .ok t →
      K t ∧ (∀ q, q ≠ pos a → cell t q = cell s q) ∧ Φ a (cell s (pos a)) (cell t (pos a)))
    {s t : σ} (hs : K s) (h : l.foldlM f s = .ok t) :
    K t ∧ (∀ q, q ∉ l.map pos → cell t q = cell s q) ∧
      ∀ a ∈ l, Φ a (cell s (pos a)) (cell t (pos a)) := by
  induction l generalizing s with
  | nil =>
      obtain rfl : s = t := by simpa using h
      exact ⟨hs, fun _ _ => rfl, by simp⟩
  | cons a l ih =>
      rw [List.foldlM_cons, bind_ok] at h
      obtain ⟨u, h1, h2⟩ := h
      obtain ⟨hu, hother, ha⟩ := hstep a (by simp) hs h1
      rw [List.map_cons, List.nodup_cons] at hnodup
      obtain ⟨ht, hother', hl⟩ := ih hnodup.2 (fun b hb => hstep b (by simp [hb])) hu h2
      refine ⟨ht, fun q hq => ?_, fun b hb => ?_⟩
      · rw [List.map_cons, List.mem_cons, not_or] at hq
        rw [hother' q hq.2, hother q hq.1]
      · rcases List.mem_cons.mp hb with rfl | hb
        · rw [hother' _ hnodup.1]
          exact ha
        · have hne : pos b ≠ pos a := by
            intro he
            exact hnodup.1 (he ▸ List.mem_map_of_mem hb)
          have := hl b hb
          rwa [hother _ hne] at this

/-- A loop does not fail if no round does in the states that it comes to. -/
theorem foldlM_total {P : List α → σ → Prop} {f : σ → α → Except ε σ}
    (hstep : ∀ a l s, P (a :: l) s → ∃ t, f s a = .ok t ∧ P l t) {l : List α} {s : σ} (h : P l s) :
    ∃ t, l.foldlM f s = .ok t := by
  induction l generalizing s with
  | nil => exact ⟨s, rfl⟩
  | cons a l ih =>
      obtain ⟨t, ht, hP⟩ := hstep a l s h
      obtain ⟨u, hu⟩ := ih hP
      exact ⟨u, by rw [List.foldlM_cons, bind_ok]; exact ⟨t, ht, hu⟩⟩

end Fallible
