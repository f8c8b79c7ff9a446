import E9Patch.X86Encoding

/-!
Whole instructions in 64-bit mode with legacy prefixes, at most one REX prefix and an opcode of the one-byte,
`0F`, `0F38` or `0F3A` map. An instruction is its parts; the structure has what the opcode maps say of their
sizes, so that its length is that of its bytes. Reserved opcodes of the last two maps are not told apart.
-/

namespace X86
open Bytes

set_option maxRecDepth 20000

/-- An immediate of some bytes, of the operand size with at most 32 or 64 bits, or of the address size. -/
inductive Imm where
  | fixed (n : Nat)
  | sizeZ
  | sizeV
  | address
  deriving DecidableEq, Repr

def Imm.size (pres : List UInt8) : Imm → Nat
  | .fixed n => n
  | .sizeZ => immZ pres
  | .sizeV => if rexW pres then 8 else if 0x66 ∈ pres then 2 else 4
  | .address => if 0x67 ∈ pres then 4 else 8

/-- What is behind an opcode of the one-byte map that has no ModRM byte; nothing is an opcode that is a prefix
or not valid in 64-bit mode. The immediate of a branch is not of the operand size. -/
def directOne (op : UInt8) : Option Imm :=
  if op < 0x40 then
    if op &&& 0x07 = 4 then some (.fixed 1) else if op &&& 0x07 = 5 then some .sizeZ else none
  else if op = 0x68 ∨ op = 0xa9 then some .sizeZ
  else if 0xb8 ≤ op ∧ op ≤ 0xbf then some .sizeV
  else if 0xa0 ≤ op ∧ op ≤ 0xa3 then some .address
  else if op = 0xe8 ∨ op = 0xe9 then some (.fixed 4)
  else if op = 0xc8 then some (.fixed 3)
  else if op = 0xc2 ∨ op = 0xca then some (.fixed 2)
  else if op = 0x6a ∨ (0x70 ≤ op ∧ op ≤ 0x7f) ∨ op = 0xa8 ∨ (0xb0 ≤ op ∧ op ≤ 0xb7) ∨ op = 0xcd ∨
      (0xe0 ≤ op ∧ op ≤ 0xe7) ∨ op = 0xeb then some (.fixed 1)
  else if (0x50 ≤ op ∧ op ≤ 0x5f) ∨ (0x6c ≤ op ∧ op ≤ 0x6f) ∨ (0x90 ≤ op ∧ op ≤ 0x99) ∨ (0x9b ≤ op ∧ op ≤ 0x9f) ∨
      (0xa4 ≤ op ∧ op ≤ 0xa7) ∨ (0xaa ≤ op ∧ op ≤ 0xaf) ∨ op = 0xc3 ∨ op = 0xc9 ∨ op = 0xcb ∨ op = 0xcc ∨ op = 0xcf ∨
      op = 0xd7 ∨ (0xec ≤ op ∧ op ≤ 0xef) ∨ op = 0xf1 ∨ op = 0xf4 ∨ op = 0xf5 ∨ (0xf8 ≤ op ∧ op ≤ 0xfd) then
    some (.fixed 0)
  else none

/-- What is behind an opcode of the `0F` map that has no ModRM byte. -/
def directTwo (op : UInt8) : Option Nat :=
  if 0x80 ≤ op ∧ op ≤ 0x8f then some 4
  else if (0x05 ≤ op ∧ op ≤ 0x09) ∨ op = 0x0b ∨ (0x30 ≤ op ∧ op ≤ 0x35) ∨ op = 0x37 ∨ op = 0x77 ∨
      (0xa0 ≤ op ∧ op ≤ 0xa2) ∨ (0xa8 ≤ op ∧ op ≤ 0xaa) ∨ (0xc8 ≤ op ∧ op ≤ 0xcf) then some 0
  else none

/-- The moves of control and debug registers: whatever its mode, the ModRM byte is all of the operand. -/
def isMoveControl (op : UInt8) : Bool := 0x20 ≤ op ∧ op ≤ 0x23

/-- A ModRM byte with the SIB byte and the displacement that it asks for. -/
def IsOperand (operand : List UInt8) : Prop :=
  operand.length = operandSize (byteAt operand 0) (byteAt operand 1)

instance (operand : List UInt8) : Decidable (IsOperand operand) := inferInstanceAs (Decidable (_ = _))

/-- The register field of the ModRM byte. -/
def regField (operand : List UInt8) : UInt8 := (byteAt operand 0 &&& 0x38) >>> 3

/-- What the opcode maps say of the operand and of the size of the immediate. -/
inductive Opcode.Takes (pres : List UInt8) : Opcode → List UInt8 → Nat → Prop
  | directOne {op : UInt8} {i : Imm} : directOne op = some i → Takes pres (.one op) [] (i.size pres)
  | directTwo {op : UInt8} {n : Nat} : directTwo op = some n → Takes pres (.two op) [] n
  | one {op : UInt8} {operand : List UInt8} : modRMOne op → IsOperand operand →
    Takes pres (.one op) operand ((Opcode.one op).immSize pres (regField operand))
  | two {op : UInt8} {operand : List UInt8} : modRMTwo op → op ≠ 0x0f → IsOperand operand →
    Takes pres (.two op) operand (immTwo op)
  | control {op modRM : UInt8} : isMoveControl op → Takes pres (.two op) [modRM] 0
  | three38 {op : UInt8} {operand : List UInt8} : IsOperand operand → Takes pres (.three38 op) operand 0
  | three3A {op : UInt8} {operand : List UInt8} : IsOperand operand → Takes pres (.three3A op) operand 1

/-- An instruction. -/
structure Instruction where
  legacy : List UInt8
  rex : Option UInt8
  opcode : Opcode
  operand : List UInt8
  imm : List UInt8
  legacy_valid : ∀ b ∈ legacy, isLegacy b
  rex_valid : ∀ b ∈ rex, isREX b
  takes : opcode.Takes (legacy ++ rex.toList) operand imm.length
  short_enough : (legacy ++ rex.toList ++ opcode.bytes ++ operand ++ imm).length ≤ 15

namespace Instruction

def pres (x : Instruction) : List UInt8 := x.legacy ++ x.rex.toList

/-- What is behind the opcode. -/
def behind (x : Instruction) : List UInt8 := x.operand ++ x.imm

def bytes (x : Instruction) : List UInt8 := x.pres ++ (x.opcode.bytes ++ x.behind)

theorem bytes_length_le (x : Instruction) : x.bytes.length ≤ 15 := by
  have h := x.short_enough
  rw [List.append_assoc, List.append_assoc] at h
  exact h

end Instruction

theorem operandSize_pos (modRM sib : UInt8) : 1 ≤ operandSize modRM sib := by
  unfold operandSize
  dsimp only
  split_ifs <;> omega

theorem IsOperand.ne_nil {operand : List UInt8} (h : IsOperand operand) : operand ≠ [] := by
  rintro rfl
  exact absurd (operandSize_pos _ _) (by rw [← h]; decide)

/-- What starts an opcode is no prefix, and the escape byte starts none of the one-byte map. -/
theorem Opcode.Takes.first {pres : List UInt8} {o : Opcode} {operand : List UInt8} {n : Nat} (h : o.Takes pres operand n) :
    ∃ b rest, o.bytes = b :: rest ∧ isLegacy b = false ∧ isREX b = false ∧ (b = 0x0f ↔ ∀ op, o ≠ .one op) := by
  have hfirst : ∀ op, modRMOne op = true ∨ (X86.directOne op).isSome = true →
      isLegacy op = false ∧ isREX op = false ∧ op ≠ 0x0f := by decide
  have hone : ∀ op, modRMOne op = true ∨ (X86.directOne op).isSome = true →
      ∃ b rest, (Opcode.one op).bytes = b :: rest ∧ isLegacy b = false ∧ isREX b = false ∧
        (b = 0x0f ↔ ∀ op', Opcode.one op ≠ .one op') := fun op hop =>
    ⟨op, [], rfl, (hfirst op hop).1, (hfirst op hop).2.1, iff_of_false (hfirst op hop).2.2 fun h => h op rfl⟩
  have hescape : isLegacy 0x0f = false ∧ isREX 0x0f = false := by decide
  cases h with
  | directOne hop => exact hone _ (Or.inr (Option.isSome_of_eq_some hop))
  | one hop _ => exact hone _ (Or.inl hop)
  | directTwo _ | two _ _ _ | control _ | three38 _ | three3A _ =>
      exact ⟨0x0f, _, rfl, hescape.1, hescape.2, iff_of_true rfl nofun⟩

/-- The escape bytes of the other maps are no opcodes of the `0F` map. -/
theorem Opcode.Takes.not_escape {pres : List UInt8} {op : UInt8} {operand : List UInt8} {n : Nat}
    (h : (Opcode.two op).Takes pres operand n) : ¬(op = 0x38 ∨ op = 0x3a) := by
  have hall : ∀ op, modRMTwo op = true ∨ (X86.directTwo op).isSome = true ∨ isMoveControl op = true →
      ¬(op = 0x38 ∨ op = 0x3a) := by decide
  cases h with
  | directTwo hop => exact hall op (Or.inr (Or.inl (Option.isSome_of_eq_some hop)))
  | two hop _ _ => exact hall op (Or.inl hop)
  | control hop => exact hall op (Or.inr (Or.inr hop))

theorem Opcode.Takes.one_of {pres : List UInt8} {op : UInt8} {operand : List UInt8} {n : Nat}
    (hop : modRMOne op = true) (hoperand : IsOperand operand)
    (hn : (Opcode.one op).immSize pres (regField operand) = n) : (Opcode.one op).Takes pres operand n :=
  hn ▸ .one hop hoperand

end X86
