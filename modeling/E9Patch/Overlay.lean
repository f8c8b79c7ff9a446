import Mathlib.Algebra.Order.Ring.Int
import Mathlib.Data.List.Basic
import Mathlib.Tactic.Common

/-!
Writes over an image. An image gives a value at every offset; a write replaces a run of them, and an
overlay is a list of writes, the later over the earlier. A write can be taken out of an overlay from below
where no later one meets it.
-/

namespace Overlay

variable {β : Type}

/-- A run of values and where it goes. -/
structure Write (β : Type) where
  off : Nat
  data : List β
  deriving DecidableEq, Repr

namespace Write

def Covers (w : Write β) (i : Nat) : Prop := w.off ≤ i ∧ i < w.off + w.data.length

instance (w : Write β) (i : Nat) : Decidable (w.Covers i) := by unfold Covers; exact inferInstance

def Disjoint (w v : Write β) : Prop := ∀ i, ¬(w.Covers i ∧ v.Covers i)

theorem Disjoint.symm {w v : Write β} (h : w.Disjoint v) : v.Disjoint w := fun i hi => h i hi.symm

/-- What stands at an offset after the write. -/
def get (w : Write β) (i : Nat) : Option β := if w.off ≤ i then w.data[i - w.off]? else none

theorem get_eq_none {w : Write β} {i : Nat} : w.get i = none ↔ ¬w.Covers i := by
  unfold get Covers
  split
  · rw [List.getElem?_eq_none_iff]
    omega
  · simp only [true_iff]
    omega

theorem get_isSome {w : Write β} {i : Nat} (h : w.Covers i) : ∃ b, w.get i = some b := by
  cases hg : w.get i with
  | none => exact absurd h (get_eq_none.mp hg)
  | some b => exact ⟨b, rfl⟩

def apply (w : Write β) (img : Nat → β) : Nat → β := fun i => (w.get i).getD (img i)

theorem apply_of_get {w : Write β} {i : Nat} {b : β} (h : w.get i = some b) (img : Nat → β) : w.apply img i = b := by
  rw [apply, h, Option.getD_some]

theorem apply_of_not_covers {w : Write β} {i : Nat} (h : ¬w.Covers i) (img : Nat → β) : w.apply img i = img i := by
  rw [apply, get_eq_none.mpr h, Option.getD_none]

/-- What is at an offset is decided by the write alone, or by what was there. -/
theorem apply_congr (w : Write β) {img img' : Nat → β} {i : Nat} (h : img i = img' i) :
    w.apply img i = w.apply img' i := by
  rw [apply, apply, h]

end Write

/-- The writes over the image, in their order. -/
def overlay (img : Nat → β) (ws : List (Write β)) : Nat → β := ws.foldl (fun img w => w.apply img) img

@[simp] theorem overlay_nil (img : Nat → β) : overlay img [] = img := rfl

@[simp] theorem overlay_cons (img : Nat → β) (w : Write β) (ws : List (Write β)) :
    overlay img (w :: ws) = overlay (w.apply img) ws := rfl

theorem overlay_append (img : Nat → β) (ws vs : List (Write β)) :
    overlay img (ws ++ vs) = overlay (overlay img ws) vs := List.foldl_append

theorem overlay_congr (ws : List (Write β)) {img img' : Nat → β} {i : Nat} (h : img i = img' i) :
    overlay img ws i = overlay img' ws i := by
  induction ws generalizing img img' with
  | nil => exact h
  | cons w ws ih => exact ih (w.apply_congr h)

theorem overlay_of_not_covers {ws : List (Write β)} {i : Nat} (h : ∀ w ∈ ws, ¬w.Covers i) (img : Nat → β) :
    overlay img ws i = img i := by
  induction ws generalizing img with
  | nil => rfl
  | cons w ws ih =>
      rw [overlay_cons, ih fun v hv => h v (List.mem_cons_of_mem _ hv)]
      exact Write.apply_of_not_covers (h w List.mem_cons_self) img

/-- A write is not seen at an offset that it does not cover. -/
theorem overlay_skip (img : Nat → β) (pre : List (Write β)) {w : Write β} (post : List (Write β)) {i : Nat}
    (h : ¬w.Covers i) : overlay img (pre ++ w :: post) i = overlay img (pre ++ post) i := by
  rw [overlay_append, overlay_append, overlay_cons]
  exact overlay_congr post (Write.apply_of_not_covers h _)

/-- The last write that covers an offset is what is seen there. -/
theorem overlay_top (img : Nat → β) (pre : List (Write β)) {w : Write β} {post : List (Write β)} {i : Nat} {b : β}
    (hget : w.get i = some b) (hpost : ∀ v ∈ post, ¬v.Covers i) : overlay img (pre ++ w :: post) i = b := by
  rw [overlay_append, overlay_cons, overlay_of_not_covers hpost]
  exact Write.apply_of_get hget _

/-- What all writes that cover an offset agree on is seen there. -/
theorem overlay_of_agree {ws : List (Write β)} {i : Nat} {b : β} (hall : ∀ w ∈ ws, ∀ c, w.get i = some c → c = b)
    (hcovered : ∃ w ∈ ws, w.Covers i) (img : Nat → β) : overlay img ws i = b := by
  induction ws generalizing img with
  | nil =>
      obtain ⟨w, hw, -⟩ := hcovered
      cases hw
  | cons w ws ih =>
      rw [overlay_cons]
      by_cases hlater : ∃ v ∈ ws, v.Covers i
      · exact ih (fun v hv => hall v (List.mem_cons_of_mem _ hv)) hlater _
      · rw [overlay_of_not_covers fun v hv hc => hlater ⟨v, hv, hc⟩]
        obtain ⟨v, hv, hc⟩ := hcovered
        rcases List.mem_cons.mp hv with rfl | hv
        · obtain ⟨c, hc⟩ := Write.get_isSome hc
          rw [Write.apply_of_get hc]
          exact hall v List.mem_cons_self c hc
        · exact absurd ⟨v, hv, hc⟩ hlater

/-- Writing back what was below a write takes it out of the overlay, where no later write meets it. -/
theorem overlay_restore {img : Nat → β} {pre post : List (Write β)} {w saved : Write β}
    (hcovers : ∀ i, saved.Covers i ↔ w.Covers i)
    (hsaved : ∀ i b, saved.get i = some b → b = overlay img pre i) (hpost : ∀ v ∈ post, w.Disjoint v) :
    saved.apply (overlay img (pre ++ w :: post)) = overlay img (pre ++ post) := by
  funext i
  by_cases h : w.Covers i
  · obtain ⟨b, hb⟩ := Write.get_isSome ((hcovers i).mpr h)
    have hfree : ∀ v ∈ post, ¬v.Covers i := fun v hv hc => hpost v hv i ⟨h, hc⟩
    rw [Write.apply_of_get hb, hsaved i b hb, overlay_append, overlay_of_not_covers hfree]
  · rw [Write.apply_of_not_covers fun hc => h ((hcovers i).mp hc), overlay_skip img pre post h]

/-! ### Runs of offsets -/

/-- A run of `len` offsets. -/
structure Extent where
  off : Nat
  len : Nat
  deriving DecidableEq, Repr

def Extent.Covers (e : Extent) (i : Nat) : Prop := e.off ≤ i ∧ i < e.off + e.len

instance (e : Extent) (i : Nat) : Decidable (e.Covers i) := by unfold Extent.Covers; exact inferInstance

def Extent.Apart (e e' : Extent) : Prop := ∀ i, ¬(e.Covers i ∧ e'.Covers i)

theorem Extent.Apart.symm {e e' : Extent} (h : e.Apart e') : e'.Apart e := fun i hi => h i hi.symm

/-- What an image has at `n` offsets. -/
def slice (img : Nat → β) (off n : Nat) : List β := (List.range n).map fun k => img (off + k)

@[simp] theorem slice_length (img : Nat → β) (off n : Nat) : (slice img off n).length = n := by
  rw [slice, List.length_map, List.length_range]

theorem slice_congr {img img' : Nat → β} {off n : Nat} (h : ∀ i, off ≤ i → i < off + n → img i = img' i) :
    slice img off n = slice img' off n := by
  apply List.map_congr_left
  intro k hk
  have hk := List.mem_range.mp hk
  exact h (off + k) (by omega) (by omega)

theorem slice_add (img : Nat → β) (off n m : Nat) : slice img off (n + m) = slice img off n ++ slice img (off + n) m := by
  unfold slice
  rw [List.range_add, List.map_append, List.map_map]
  congr 1
  apply List.map_congr_left
  intro k _
  exact congrArg img (Nat.add_assoc off n k).symm

/-- The extent of a write shows what was written, where no later write meets it. -/
theorem slice_overlay_top (img : Nat → β) (pre : List (Write β)) {w : Write β} {post : List (Write β)}
    (h : ∀ v ∈ post, w.Disjoint v) : slice (overlay img (pre ++ w :: post)) w.off w.data.length = w.data := by
  apply List.ext_getElem
  · exact slice_length _ _ _
  · intro k hk hk'
    have hget : w.get (w.off + k) = some w.data[k] := by
      unfold Write.get
      rw [if_pos (by omega), Nat.add_sub_cancel_left, List.getElem?_eq_getElem hk']
    have hcovers : w.Covers (w.off + k) := ⟨by omega, by omega⟩
    simp only [slice, List.getElem_map, List.getElem_range]
    exact overlay_top img pre hget fun v hv hc => h v hv _ ⟨hcovers, hc⟩

/-- Nothing changes in an extent that the writes keep clear of. -/
theorem slice_overlay_of_apart (img : Nat → β) {ws : List (Write β)} {off n : Nat}
    (h : ∀ w ∈ ws, ∀ i, off ≤ i → i < off + n → ¬w.Covers i) : slice (overlay img ws) off n = slice img off n := by
  apply slice_congr
  intro i h1 h2
  exact overlay_of_not_covers (fun w hw => h w hw i h1 h2) img

section
variable {γ : Type} {G : List γ} {copies : γ → List (Write β)} {Occupies : γ → Nat → Prop}

/-- Several lists of writes, each inside a region of its own: in its region a list shows through the
others. -/
theorem overlay_own (hown : ∀ g ∈ G, ∀ w ∈ copies g, ∀ i, w.Covers i → Occupies g i)
    (hapart : G.Pairwise fun g h => ∀ i, ¬(Occupies g i ∧ Occupies h i)) {g : γ} (hg : g ∈ G) {i : Nat}
    (hi : Occupies g i) (img : Nat → β) : overlay img (G.flatMap copies) i = overlay img (copies g) i := by
  obtain ⟨pre, post, rfl⟩ := List.append_of_mem hg
  obtain ⟨-, hpost, hpre⟩ := List.pairwise_append.mp hapart
  have hafter : ∀ w ∈ post.flatMap copies, ¬w.Covers i := by
    intro w hw hc
    obtain ⟨h, hh, hw⟩ := List.mem_flatMap.mp hw
    have hocc := hown h (by simp [hh]) w hw i hc
    exact (List.pairwise_cons.mp hpost).1 h hh i ⟨hi, hocc⟩
  have hbefore : ∀ w ∈ pre.flatMap copies, ¬w.Covers i := by
    intro w hw hc
    obtain ⟨h, hh, hw⟩ := List.mem_flatMap.mp hw
    have hocc := hown h (by simp [hh]) w hw i hc
    exact hpre h hh g List.mem_cons_self i ⟨hocc, hi⟩
  rw [List.flatMap_append, List.flatMap_cons, overlay_append, overlay_append, overlay_of_not_covers hafter]
  exact overlay_congr _ (overlay_of_not_covers hbefore img)

/-- Only inside the regions does anything change. -/
theorem overlay_changes (hown : ∀ g ∈ G, ∀ w ∈ copies g, ∀ i, w.Covers i → Occupies g i) {img : Nat → β} {i : Nat}
    (h : overlay img (G.flatMap copies) i ≠ img i) : ∃ g ∈ G, Occupies g i := by
  by_contra hnone
  refine h (overlay_of_not_covers (fun w hw hc => hnone ?_) img)
  obtain ⟨g, hg, hw⟩ := List.mem_flatMap.mp hw
  exact ⟨g, hg, hown g hg w hw i hc⟩

end

end Overlay
