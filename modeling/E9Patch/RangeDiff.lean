import E9Patch.MaximalRuns
import E9Patch.Overlay

/-!
Differences between two images, range by range. A range of the old image is to show what a range of the new image
has, and each maximal run of cells that differ gives a write. The writes of some of the ranges make all of them show
the new values exactly if no two ranges want different values for one cell, and no cell that differs is left out.
-/

namespace RangeDiff
open MaximalRuns Overlay

/-- A range of the old image, and where the values that it is to show are in the new one. -/
structure Range where
  old : Nat
  new : Nat
  size : Nat
  deriving DecidableEq, Repr

namespace Range

variable {β : Type} [DecidableEq β] (a b : Nat → β)

/-- Cell `i` of the range has another value in the new image. -/
def differs (r : Range) (i : Nat) : Bool := a (r.old + i) ≠ b (r.new + i)

def changes (r : Range) : List (Nat × Nat) := runs (r.differs a b) r.size

/-- The write for a run of `change.2` cells from cell `change.1` on. -/
def write (r : Range) (change : Nat × Nat) : Write β := ⟨r.old + change.1, slice b (r.new + change.1) change.2⟩

def writes (r : Range) : List (Write β) := (r.changes a b).map (r.write b)

def Shows (img : Nat → β) (r : Range) : Prop := ∀ i < r.size, img (r.old + i) = b (r.new + i)

/-- The ranges want the same values where they meet. -/
def Agrees (r s : Range) : Prop :=
  ∀ i < r.size, ∀ j < s.size, r.old + i = s.old + j → b (r.new + i) = b (s.new + j)

def Holds (r : Range) (x : Nat) : Prop := r.old ≤ x ∧ x < r.old + r.size

variable {a b} {r : Range} {w : Write β} {x i : Nat} {c : β}

theorem differs_iff : r.differs a b i = true ↔ a (r.old + i) ≠ b (r.new + i) := by
  unfold differs
  exact decide_eq_true_iff

/-- What the writes of a range write. -/
theorem get_of_mem (hw : w ∈ r.writes a b) (hget : w.get x = some c) :
    ∃ i < r.size, x = r.old + i ∧ r.differs a b i = true ∧ c = b (r.new + i) := by
  obtain ⟨⟨start, len⟩, hchange, rfl⟩ := List.mem_map.mp hw
  have hrun := mem_runs.mp hchange
  have hle := hrun.le
  unfold Write.get at hget
  split at hget
  · rename_i hoff
    obtain ⟨hlt, hval⟩ := List.getElem?_eq_some_iff.mp hget
    simp only [write, slice_length] at hoff hlt
    have hall := hrun.all (x - (r.old + start)) hlt
    refine ⟨x - r.old, by omega, by omega, ?_, ?_⟩
    · rw [show x - r.old = start + (x - (r.old + start)) by omega]
      exact hall
    · rw [← hval]
      simp only [write, slice, List.getElem_map, List.getElem_range]
      rw [show r.new + start + (x - (r.old + start)) = r.new + (x - r.old) by omega]
  · cases hget

/-- Each cell that differs is written. -/
theorem exists_write (hi : i < r.size) (hdiffers : r.differs a b i = true) :
    ∃ w ∈ r.writes a b, w.Covers (r.old + i) := by
  obtain ⟨⟨start, len⟩, hchange, hle, hlt⟩ := exists_run hi hdiffers
  refine ⟨r.write b (start, len), List.mem_map_of_mem hchange, ?_⟩
  unfold Write.Covers write
  rw [slice_length]
  simp only at hle hlt ⊢
  omega

end Range

variable {β : Type} [DecidableEq β] {a b : Nat → β} {done all : List Range}

/-- Where the ranges agree, a cell of one of them that is written shows what it is to show, and any other cell does
not change. -/
theorem overlay_shows (hsub : ∀ r ∈ done, r ∈ all) (hagree : ∀ r ∈ all, ∀ s ∈ all, r.Agrees b s) {r : Range}
    (hr : r ∈ all) {i : Nat} (hi : i < r.size)
    (hcovered : r.differs a b i = true → ∃ s ∈ done, s.Holds (r.old + i)) :
    overlay a (done.flatMap (Range.writes a b)) (r.old + i) = b (r.new + i) := by
  have hwant : ∀ w ∈ done.flatMap (Range.writes a b), ∀ c, w.get (r.old + i) = some c → c = b (r.new + i) := by
    intro w hw c hget
    obtain ⟨s, hs, hw⟩ := List.mem_flatMap.mp hw
    obtain ⟨j, hj, hx, -, rfl⟩ := Range.get_of_mem hw hget
    exact hagree s (hsub s hs) r hr j hj i hi hx.symm
  by_cases hwritten : ∃ w ∈ done.flatMap (Range.writes a b), w.Covers (r.old + i)
  · exact overlay_of_agree hwant hwritten a
  · rw [overlay_of_not_covers fun w hw hc => hwritten ⟨w, hw, hc⟩]
    by_contra hne
    obtain ⟨s, hs, hle, hlt⟩ := hcovered (Range.differs_iff.mpr hne)
    -- the range that has the cell wants the same value, and so writes it
    have hsame := hagree s (hsub s hs) r hr (r.old + i - s.old) (by omega) i hi (by omega)
    have hdiffers : s.differs a b (r.old + i - s.old) = true := by
      rw [Range.differs_iff, hsame, show s.old + (r.old + i - s.old) = r.old + i by omega]
      exact hne
    obtain ⟨w, hw, hc⟩ := Range.exists_write (by omega) hdiffers
    rw [show s.old + (r.old + i - s.old) = r.old + i by omega] at hc
    exact hwritten ⟨w, List.mem_flatMap.mpr ⟨s, hs, hw⟩, hc⟩

theorem overlay_shows_iff (hsub : ∀ r ∈ done, r ∈ all) :
    (∀ r ∈ all, r.Shows b (overlay a (done.flatMap (Range.writes a b)))) ↔
      (∀ r ∈ all, ∀ s ∈ all, r.Agrees b s) ∧
      ∀ r ∈ all, ∀ i < r.size, r.differs a b i = true → ∃ s ∈ done, s.Holds (r.old + i) := by
  constructor
  · intro hshows
    refine ⟨fun r hr s hs i hi j hj hx => ?_, fun r hr i hi hdiffers => ?_⟩
    · calc b (r.new + i) = overlay a (done.flatMap (Range.writes a b)) (r.old + i) := (hshows r hr i hi).symm
        _ = overlay a (done.flatMap (Range.writes a b)) (s.old + j) := by rw [hx]
        _ = b (s.new + j) := hshows s hs j hj
    · by_contra hnone
      have hfree : ∀ w ∈ done.flatMap (Range.writes a b), ¬w.Covers (r.old + i) := by
        intro w hw hc
        obtain ⟨s, hs, hw⟩ := List.mem_flatMap.mp hw
        obtain ⟨c, hget⟩ := Write.get_isSome hc
        obtain ⟨j, hj, hx, -, -⟩ := Range.get_of_mem hw hget
        apply hnone
        exact ⟨s, hs, by unfold Range.Holds; omega⟩
      have hshown := hshows r hr i hi
      rw [overlay_of_not_covers hfree] at hshown
      exact Range.differs_iff.mp hdiffers hshown
  · rintro ⟨hagree, hcovered⟩ r hr i hi
    exact overlay_shows hsub hagree hr hi (hcovered r hr i hi)

end RangeDiff
