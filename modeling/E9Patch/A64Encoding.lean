import Mathlib.Algebra.Order.Ring.Int
import Mathlib.Data.List.Basic
import Mathlib.Tactic.Common

/-!
The branches of the A64 instruction set. A class of instructions is given by the fields that are fixed in its
encoding; the branches with a target have it as a signed number of words in another field. A test of a word
under a mask stands for such fields.
-/

namespace A64

/-- A field of a word and the number in it. -/
structure Field where
  start : Nat
  len : Nat
  value : Nat
  deriving DecidableEq, Repr

def Field.Holds (f : Field) (w : BitVec 32) : Prop := (w.extractLsb' f.start f.len).toNat = f.value

instance (f : Field) (w : BitVec 32) : Decidable (f.Holds w) := by unfold Field.Holds; exact inferInstance

inductive Branch where
  | B
  | BL
  | BCond
  | CBZ
  | CBNZ
  | TBZ
  | TBNZ
  | RET
  deriving DecidableEq, Repr

namespace Branch

/-- The fields that are fixed in the encoding. -/
def fields : Branch → List Field
  | .B => [⟨26, 6, 0b000101⟩]
  | .BL => [⟨26, 6, 0b100101⟩]
  | .BCond => [⟨24, 8, 0b01010100⟩, ⟨4, 1, 0⟩]
  | .CBZ => [⟨25, 6, 0b011010⟩, ⟨24, 1, 0⟩]
  | .CBNZ => [⟨25, 6, 0b011010⟩, ⟨24, 1, 1⟩]
  | .TBZ => [⟨25, 6, 0b011011⟩, ⟨24, 1, 0⟩]
  | .TBNZ => [⟨25, 6, 0b011011⟩, ⟨24, 1, 1⟩]
  | .RET => [⟨25, 7, 0b1101011⟩, ⟨21, 4, 0b0010⟩, ⟨16, 5, 0b11111⟩, ⟨10, 6, 0⟩, ⟨0, 5, 0⟩]

/-- The word is an instruction of the class. -/
def Is (b : Branch) (w : BitVec 32) : Prop := ∀ f ∈ b.fields, f.Holds w

instance (b : Branch) (w : BitVec 32) : Decidable (b.Is w) := by unfold Is; exact inferInstance

/-- Where the offset stands, and how many bits it has. -/
def offsetField : Branch → Option (Nat × Nat)
  | .B => some (0, 26)
  | .BL => some (0, 26)
  | .BCond => some (5, 19)
  | .CBZ => some (5, 19)
  | .CBNZ => some (5, 19)
  | .TBZ => some (5, 14)
  | .TBNZ => some (5, 14)
  | .RET => none

/-- The target of the instruction `w` at an address of 64 bits. -/
def target (b : Branch) (addr : Nat) (w : BitVec 32) : Option Int :=
  b.offsetField.map fun p => ((addr : Int) + (w.extractLsb' p.1 p.2).toInt * 4) % 2 ^ 64

end Branch

/-! ### Tests under a mask -/

/-- The mask takes the bits of the fields, and the value has the numbers of the fields in them. -/
structure Tests (mask value : BitVec 32) (fs : List Field) : Prop where
  fits : ∀ f ∈ fs, f.start + f.len ≤ 32 ∧ f.value < 2 ^ f.len
  bits : ∀ f ∈ fs, ∀ i < f.len, mask.getLsbD (f.start + i) = true ∧ value.getLsbD (f.start + i) = f.value.testBit i
  covered : ∀ i < 32, mask.getLsbD i = true → ∃ f ∈ fs, f.start ≤ i ∧ i < f.start + f.len
  within : value &&& mask = value

theorem Field.holds_iff {f : Field} (hvalue : f.value < 2 ^ f.len) (w : BitVec 32) :
    f.Holds w ↔ ∀ i < f.len, w.getLsbD (f.start + i) = f.value.testBit i := by
  have hnum : f.Holds w ↔ w.extractLsb' f.start f.len = BitVec.ofNat f.len f.value := by
    rw [← BitVec.toNat_inj, BitVec.toNat_ofNat, Nat.mod_eq_of_lt hvalue]
    exact Iff.rfl
  rw [hnum]
  constructor
  · intro h i hi
    have hbit := congrArg (fun x => x.getLsbD i) h
    simpa [hi, ← BitVec.getLsbD_eq_getElem, BitVec.getLsbD_ofNat] using hbit
  · intro h
    apply BitVec.eq_of_getLsbD_eq
    intro i hi
    simpa [hi, ← BitVec.getLsbD_eq_getElem, BitVec.getLsbD_ofNat] using h i hi

/-- A word passes the test exactly if it has the numbers in its fields. -/
theorem Tests.iff {mask value : BitVec 32} {fs : List Field} (h : Tests mask value fs) (w : BitVec 32) :
    w &&& mask = value ↔ ∀ f ∈ fs, f.Holds w := by
  constructor
  · intro heq f hf
    refine (Field.holds_iff (h.fits f hf).2 w).mpr ?_
    intro i hi
    obtain ⟨hmask, hvalue⟩ := h.bits f hf i hi
    have hbit := congrArg (fun x => x.getLsbD (f.start + i)) heq
    simpa [hmask, hvalue] using hbit
  · intro hall
    apply BitVec.eq_of_getLsbD_eq
    intro i hi
    rw [BitVec.getLsbD_and]
    cases hmask : mask.getLsbD i with
    | false =>
        have hzero := congrArg (fun x => x.getLsbD i) h.within
        simp only [BitVec.getLsbD_and, hmask, Bool.and_false] at hzero ⊢
        exact hzero
    | true =>
        obtain ⟨f, hf, hle, hlt⟩ := h.covered i hi hmask
        have hword := (Field.holds_iff (h.fits f hf).2 w).mp (hall f hf) (i - f.start) (by omega)
        have hvalue := (h.bits f hf (i - f.start) (by omega)).2
        rw [Nat.add_sub_cancel' hle] at hword hvalue
        rw [hword, hvalue, Bool.and_true]

namespace Branch

/-- What the encoding fixes of a bit. -/
def fixedBit (b : Branch) (i : Nat) : Option Bool :=
  (b.fields.find? fun f => f.start ≤ i ∧ i < f.start + f.len).map fun f => f.value.testBit (i - f.start)

theorem fields_fit (b : Branch) : ∀ f ∈ b.fields, f.value < 2 ^ f.len := by
  cases b <;> decide

theorem Is.bit {b : Branch} {w : BitVec 32} (h : b.Is w) {i : Nat} {x : Bool} (hx : b.fixedBit i = some x) :
    w.getLsbD i = x := by
  obtain ⟨f, hfind, rfl⟩ := Option.map_eq_some_iff.mp hx
  have hf := List.mem_of_find?_eq_some hfind
  have hin : f.start ≤ i ∧ i < f.start + f.len := by simpa using List.find?_some hfind
  have hbit := (Field.holds_iff (fields_fit b f hf) w).mp (h f hf) (i - f.start) (by omega)
  rwa [Nat.add_sub_cancel' hin.1] at hbit

/-- Two classes differ in a bit that both fix. -/
theorem differ (b b' : Branch) (hne : b ≠ b') : ∃ i < 32, ∃ x, b.fixedBit i = some x ∧ b'.fixedBit i = some !x := by
  cases b <;> cases b' <;> first | exact absurd rfl hne | decide

/-- A word is an instruction of one class at most. -/
theorem Is.unique {b b' : Branch} {w : BitVec 32} (h : b.Is w) (h' : b'.Is w) : b = b' := by
  by_contra hne
  obtain ⟨i, -, x, hx, hx'⟩ := differ b b' hne
  have heq := (h.bit hx).symm.trans (h'.bit hx')
  cases x <;> cases heq

end Branch

/-! ### Signed fields -/

/-- Setting the bits above the sign bit of a field, where that is set, extends its sign. -/
theorem signExtend_field {n : Nat} {low sign top : BitVec 32} (hn : 0 < n) (hfit : n ≤ 32)
    (hlow : ∀ i < 32, low.getLsbD i = decide (i < n)) (hsign : sign = BitVec.twoPow 32 (n - 1))
    (htop : ∀ i < 32, top.getLsbD i = decide (n ≤ i)) (w : BitVec 32) (s : Nat) :
    (if (w >>> s &&& low) &&& sign ≠ 0 then (w >>> s &&& low) ||| top else w >>> s &&& low) =
      (w.extractLsb' s n).signExtend 32 := by
  have hlast : n - 1 < 32 := by omega
  have hbit : (w >>> s &&& low).getLsbD (n - 1) = w.getLsbD (s + (n - 1)) := by
    have hlow := hlow (n - 1) hlast
    rw [decide_eq_true (by omega)] at hlow
    rw [BitVec.getLsbD_and, BitVec.getLsbD_ushiftRight, hlow, Bool.and_true]
  have hmsb : (w.extractLsb' s n).msb = w.getLsbD (s + (n - 1)) := by
    rw [BitVec.msb_eq_getLsbD_last, BitVec.getLsbD_extractLsb', decide_eq_true (by omega), Bool.true_and]
  have hne : BitVec.twoPow 32 (n - 1) ≠ 0 := by
    intro hzero
    have hbit := congrArg (fun x => x.getLsbD (n - 1)) hzero
    simp [hlast] at hbit
  apply BitVec.eq_of_getLsbD_eq
  intro i hi
  rw [BitVec.getLsbD_signExtend, hmsb, BitVec.getLsbD_extractLsb', hsign, BitVec.and_twoPow, hbit]
  cases hsigned : w.getLsbD (s + (n - 1)) with
  | true =>
      rw [if_pos rfl, if_pos hne, BitVec.getLsbD_or, BitVec.getLsbD_and, BitVec.getLsbD_ushiftRight, hlow i hi, htop i hi]
      by_cases hin : i < n
      · have hle : ¬n ≤ i := by omega
        simp [hi, hin, hle]
      · have hle : n ≤ i := by omega
        simp [hi, hin, hle]
  | false =>
      rw [if_neg (by simp), BitVec.getLsbD_and, BitVec.getLsbD_ushiftRight, hlow i hi]
      by_cases hin : i < n
      · simp [hi, hin]
      · simp [hi, hin]

/-- Four times a field of at most 26 bits is its number of bytes in 32 bits. -/
theorem signExtend_shift {n : Nat} (hn : n ≤ 26) (x : BitVec n) : (x.signExtend 32 <<< 2).toInt = x.toInt * 4 := by
  have hlower := x.le_toInt
  have hupper := x.toInt_lt
  have hpow : (2 : Int) ^ (n - 1) ≤ 2 ^ 25 := by
    exact_mod_cast Nat.pow_le_pow_right (show 0 < 2 by decide) (show n - 1 ≤ 25 by omega)
  have hsame : (x.signExtend 32).toInt = x.toInt := BitVec.toInt_signExtend_of_le (by omega)
  have hnum := BitVec.toInt_eq_toNat_cond (x.signExtend 32)
  rw [hsame] at hnum
  rw [BitVec.toInt_shiftLeft, Int.bmod_def, Nat.shiftLeft_eq]
  split at hnum <;> split <;> omega

end A64
