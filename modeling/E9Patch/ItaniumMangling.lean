import Mathlib.Algebra.Order.Ring.Int
import Mathlib.Data.List.Basic
import Mathlib.Tactic.Common

/-!
Mangled types of the Itanium C++ ABI: builtin types, qualified types and pointers. Every type that is no
builtin is a candidate for substitution once it was mangled, the parts of a type before the type itself, and
a candidate is written as its number in base 36.
-/

namespace ItaniumMangling

/-- Types over the builtin types `β`. -/
inductive CType (β : Type) where
  | builtin (b : β)
  | const (t : CType β)
  | ptr (t : CType β)
  deriving DecidableEq

/-- The candidates for substitution so far. -/
abbrev Dictionary (β : Type) := List (CType β)

/-- A digit of base 36, with capitals. -/
def seqDigit (d : Nat) : UInt8 := if d < 10 then 0x30 + UInt8.ofNat d else 0x41 + UInt8.ofNat (d - 10)

/-- The numeral of a number in base 36, which has at most `fuel + 1` digits. -/
def seqDigits : Nat → Nat → List UInt8
  | 0, n => [seqDigit n]
  | fuel + 1, n => if n < 36 then [seqDigit n] else seqDigits fuel (n / 36) ++ [seqDigit (n % 36)]

/-- The substitution for candidate number `i`: `S_`, `S0_`, `S1_` and so on. -/
def substitution (i : Nat) : List UInt8 :=
  0x53 :: match i with
    | 0 => [0x5F]
    | n + 1 => seqDigits n n ++ [0x5F]

variable {β : Type} [DecidableEq β] (code : β → List UInt8)

/-- A candidate gives its number, and another type its own text and a new candidate. -/
def substitute (dict : Dictionary β) (t : CType β) (text : List UInt8 × Dictionary β) : List UInt8 × Dictionary β :=
  match dict.idxOf? t with
  | some i => (substitution i, dict)
  | none => (text.1, text.2 ++ [t])

/-- The text of a type, and the candidates behind it. -/
def mangle (dict : Dictionary β) : CType β → List UInt8 × Dictionary β
  | .builtin b => (code b, dict)
  | .const t => substitute dict (.const t) (0x4B :: (mangle dict t).1, (mangle dict t).2)
  | .ptr t => substitute dict (.ptr t) (0x50 :: (mangle dict t).1, (mangle dict t).2)

/-- The text of a list of types. -/
def mangleAll : Dictionary β → List (CType β) → List UInt8
  | _, [] => []
  | dict, t :: ts => (mangle code dict t).1 ++ mangleAll (mangle code dict t).2 ts

/-- The candidates behind a list of types. -/
def candidates : Dictionary β → List (CType β) → Dictionary β
  | dict, [] => dict
  | dict, t :: ts => candidates (mangle code dict t).2 ts

variable {code}

theorem substitute_of_mem {dict : Dictionary β} {t : CType β} {i : Nat} (h : dict.idxOf? t = some i)
    (text : List UInt8 × Dictionary β) : substitute dict t text = (substitution i, dict) := by
  rw [substitute, h]

theorem substitute_of_not_mem {dict : Dictionary β} {t : CType β} (h : t ∉ dict)
    (text : List UInt8 × Dictionary β) : substitute dict t text = (text.1, text.2 ++ [t]) := by
  rw [substitute, List.idxOf?_eq_none_iff.mpr h]

theorem mem_of_idxOf {dict : Dictionary β} {t : CType β} {i : Nat} (h : dict.idxOf? t = some i) : dict[i]? = some t := by
  unfold List.idxOf? at h
  obtain ⟨hi, heq, -⟩ := List.findIdx?_eq_some_iff_getElem.mp h
  rw [List.getElem?_eq_getElem hi]
  exact congrArg some (by simpa using heq)

end ItaniumMangling
