import Mathlib.Algebra.Order.Ring.Int
import Mathlib.Tactic.Common
import Mathlib.Data.List.Basic

/-!
Numbers as text: the numeral of a number in a base up to 16, and what a reader makes of a run of digits.
Text is a list of bytes.
-/

namespace Numerals

/-- The bytes of a text in ASCII. -/
def ascii (s : String) : List UInt8 := s.toList.map fun c => UInt8.ofNat c.toNat

/-- The numeral of a number, high digit first, with small letters. -/
def numeral (base n : Nat) : List UInt8 := (Nat.toDigits base n).map fun c => UInt8.ofNat c.toNat

/-- A number with its sign, as `printf` gives it. -/
def signedNumeral (x : Int) : List UInt8 :=
  if x < 0 then 0x2d :: numeral 10 (-x).toNat else numeral 10 x.toNat

/-- The value of a digit, or a number that no base reaches. -/
def digitValue (c : UInt8) : Nat :=
  if 0x30 ≤ c ∧ c ≤ 0x39 then c.toNat - 0x30
  else if 0x61 ≤ c ∧ c ≤ 0x7a then c.toNat - 0x61 + 10
  else if 0x41 ≤ c ∧ c ≤ 0x5a then c.toNat - 0x41 + 10
  else 36

def isDigit (base : Nat) (c : UInt8) : Bool := digitValue c < base

/-- The number of a run of digits. -/
def ofDigits (base : Nat) (s : List UInt8) : Nat := s.foldl (fun x c => base * x + digitValue c) 0

/-- The digits in front of a text, and what is behind them. -/
def spanDigits (base : Nat) (s : List UInt8) : List UInt8 × List UInt8 :=
  (s.takeWhile (isDigit base), s.dropWhile (isDigit base))

/-- The digit of a number below 16. -/
def digitByte (d : Nat) : UInt8 := UInt8.ofNat (Nat.digitChar d).toNat

theorem digitValue_digitByte : ∀ d < 16, digitValue (digitByte d) = d := by decide

theorem numeral_eq {base : Nat} (hb : 1 < base) (n : Nat) :
    numeral base n = (if n < base then [] else numeral base (n / base)) ++ [digitByte (n % base)] := by
  unfold numeral
  rw [Nat.toDigits_eq_if hb]
  split
  · rename_i h
    rw [Nat.mod_eq_of_lt h]
    rfl
  · rw [List.map_append]
    rfl

theorem ofDigits_concat (base : Nat) (s : List UInt8) (c : UInt8) :
    ofDigits base (s ++ [c]) = base * ofDigits base s + digitValue c := by
  unfold ofDigits
  rw [List.foldl_append]
  rfl

section
variable {base : Nat} (hb : 1 < base) (hb' : base ≤ 16)
include hb hb'

/-- A numeral is read back. -/
theorem ofDigits_numeral (n : Nat) : ofDigits base (numeral base n) = n := by
  induction n using Nat.strongRecOn with
  | ind n ih =>
      have hmod : n % base < base := Nat.mod_lt n (by omega)
      rw [numeral_eq hb, ofDigits_concat, digitValue_digitByte _ (by omega)]
      split
      · rename_i h
        rw [Nat.mod_eq_of_lt h]
        exact Nat.zero_add n
      · rename_i h
        rw [ih (n / base) (Nat.div_lt_self (by omega) hb)]
        exact Nat.div_add_mod n base

theorem numeral_digits (n : Nat) : ∀ c ∈ numeral base n, isDigit base c = true := by
  induction n using Nat.strongRecOn with
  | ind n ih =>
      have hmod : n % base < base := Nat.mod_lt n (by omega)
      intro c hc
      rw [numeral_eq hb, List.mem_append] at hc
      rcases hc with hc | hc
      · split at hc
        · cases hc
        · exact ih (n / base) (Nat.div_lt_self (by omega) hb) c hc
      · rw [List.mem_singleton.mp hc, isDigit, digitValue_digitByte _ (by omega)]
        exact decide_eq_true hmod

/-- The digits of a numeral are taken off the front of a text that goes on with something else. -/
theorem spanDigits_numeral (n : Nat) {rest : List UInt8} (h : ∀ c ∈ rest.head?, isDigit base c = false) :
    spanDigits base (numeral base n ++ rest) = (numeral base n, rest) := by
  have hall := numeral_digits hb hb' n
  have hrest : rest.takeWhile (isDigit base) = [] ∧ rest.dropWhile (isDigit base) = rest := by
    cases rest with
    | nil => exact ⟨rfl, rfl⟩
    | cons c rest => simp [h c rfl]
  unfold spanDigits
  rw [List.takeWhile_append_of_pos hall, List.dropWhile_append_of_pos hall, hrest.1, hrest.2,
    List.append_nil]

end

/-- A numeral has no leading zero. -/
theorem numeral_head {base n : Nat} (hb : 1 < base) (hb' : base ≤ 16) (hn : 0 < n) :
    ∃ c s, numeral base n = c :: s ∧ c ≠ 0x30 := by
  have hdigit : ∀ d < 16, 0 < d → digitByte d ≠ 0x30 := by decide
  induction n using Nat.strongRecOn with
  | ind n ih =>
      rw [numeral_eq hb]
      split
      · rename_i h
        rw [Nat.mod_eq_of_lt h]
        exact ⟨_, _, rfl, hdigit n (by omega) hn⟩
      · rename_i h
        obtain ⟨c, s, hhead, hc⟩ := ih (n / base) (Nat.div_lt_self hn hb) (Nat.div_pos (by omega) (by omega))
        rw [hhead]
        exact ⟨c, _, rfl, hc⟩

theorem numeral_ne_nil (base n : Nat) : numeral base n ≠ [] := by
  unfold numeral
  rw [Ne, List.map_eq_nil_iff]
  exact Nat.toDigits_ne_nil

theorem numeral_length {base n k : Nat} (hb : 1 < base) (hk : 0 < k) (h : n < base ^ k) :
    (numeral base n).length ≤ k := by
  unfold numeral
  rw [List.length_map]
  exact (Nat.length_toDigits_le_iff hb hk).mpr h

end Numerals
