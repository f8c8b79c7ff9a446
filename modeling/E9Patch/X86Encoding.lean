import E9Patch.Bytes

/-!
The encoding of x86-64 instructions, as far as pc-relative operands go: prefixes, the opcode maps with
their legacy, VEX and EVEX encodings, and the size of the immediate behind an operand. An encoding is
data from which the bytes are computed; the structure `PCRelative` has what makes it a valid one.
-/

namespace X86
open Bytes

/-! ### Prefixes -/

def isREX (b : UInt8) : Bool := b &&& 0xf0 = 0x40

/-- Lock and repeat prefixes, segment overrides, operand size and address size. -/
def isLegacy (b : UInt8) : Bool :=
  b = 0xf0 ∨ b = 0xf2 ∨ b = 0xf3 ∨ b = 0x2e ∨ b = 0x36 ∨ b = 0x3e ∨ b = 0x26 ∨ b = 0x64 ∨ b = 0x65 ∨
    b = 0x66 ∨ b = 0x67

/-- The legacy prefixes that are valid in front of VEX and EVEX. -/
def isOverride (b : UInt8) : Bool :=
  b = 0x2e ∨ b = 0x36 ∨ b = 0x3e ∨ b = 0x26 ∨ b = 0x64 ∨ b = 0x65 ∨ b = 0x67

/-- The REX prefix takes effect only right in front of the opcode. -/
def rexOf (pres : List UInt8) : UInt8 :=
  match pres.getLast? with
  | none => 0
  | some b => if isREX b then b else 0

def rexW (pres : List UInt8) : Bool := rexOf pres &&& 0x8 ≠ 0

/-- The size of an immediate of the operand size. -/
def immZ (pres : List UInt8) : Nat := if 0x66 ∈ pres ∧ !rexW pres then 2 else 4

/-! ### Opcodes -/

/-- An opcode with its map and encoding. -/
inductive Opcode where
  | one (op : UInt8)
  | two (op : UInt8)
  | three38 (op : UInt8)
  | three3A (op : UInt8)
  | vex2 (p op : UInt8)
  | vex3 (p₀ p₁ op : UInt8)
  | evex (p₀ p₁ p₂ op : UInt8)
  deriving DecidableEq, Repr

def Opcode.bytes : Opcode → List UInt8
  | .one op => [op]
  | .two op => [0x0f, op]
  | .three38 op => [0x0f, 0x38, op]
  | .three3A op => [0x0f, 0x3a, op]
  | .vex2 p op => [0xc5, p, op]
  | .vex3 p₀ p₁ op => [0xc4, p₀, p₁, op]
  | .evex p₀ p₁ p₂ op => [0x62, p₀, p₁, p₂, op]

/-- The opcodes of the one-byte map that have a ModRM byte. -/
def modRMOne (op : UInt8) : Bool :=
  (op < 0x40 ∧ op &&& 0x07 < 4) ∨ op = 0x63 ∨ op = 0x69 ∨ op = 0x6b ∨ op = 0x80 ∨ op = 0x81 ∨
    (0x83 ≤ op ∧ op ≤ 0x8f) ∨ op = 0xc0 ∨ op = 0xc1 ∨ op = 0xc6 ∨ op = 0xc7 ∨ (0xd0 ≤ op ∧ op ≤ 0xd3) ∨
    (0xd8 ≤ op ∧ op ≤ 0xdf) ∨ op = 0xf6 ∨ op = 0xf7 ∨ op = 0xfe ∨ op = 0xff

/-- The opcodes of the `0F` map that have a ModRM byte, but for the moves of control registers, whose
ModRM byte is never a memory operand. -/
def modRMTwo (op : UInt8) : Bool :=
  op ≤ 0x03 ∨ op = 0x0d ∨ op = 0x0f ∨ (0x10 ≤ op ∧ op ≤ 0x1f) ∨ (0x28 ≤ op ∧ op ≤ 0x2f) ∨
    (0x40 ≤ op ∧ op ≤ 0x76) ∨ (0x78 ≤ op ∧ op ≤ 0x7f) ∨ (0x90 ≤ op ∧ op ≤ 0x9f) ∨
    (0xa3 ≤ op ∧ op ≤ 0xa5) ∨ (0xab ≤ op ∧ op ≤ 0xc7) ∨ 0xd0 ≤ op

/-- The map of a VEX prefix of three bytes, and of an EVEX prefix. -/
def vexMap (p₀ : UInt8) : UInt8 := p₀ &&& 0x1f
def evexMap (p₀ : UInt8) : UInt8 := p₀ &&& 0x07

/-- Where the prefixes and the opcode make up an instruction with a memory operand. -/
def Opcode.Valid (pres : List UInt8) : Opcode → Prop
  | .one op => (∀ b ∈ pres, isLegacy b ∨ isREX b) ∧ modRMOne op
  | .two op => (∀ b ∈ pres, isLegacy b ∨ isREX b) ∧ modRMTwo op
  | .three38 _ | .three3A _ => ∀ b ∈ pres, isLegacy b ∨ isREX b
  | .vex2 _ op => (∀ b ∈ pres, isOverride b) ∧ modRMTwo op
  | .vex3 p₀ _ _ => (∀ b ∈ pres, isOverride b) ∧ (vexMap p₀ = 1 ∨ vexMap p₀ = 2 ∨ vexMap p₀ = 3)
  | .evex p₀ p₁ _ _ => (∀ b ∈ pres, isOverride b) ∧ p₀ &&& 0x08 = 0 ∧ p₁ &&& 0x04 = 0x04 ∧
    (evexMap p₀ = 1 ∨ evexMap p₀ = 2 ∨ evexMap p₀ = 3 ∨ evexMap p₀ = 5 ∨ evexMap p₀ = 6)

instance (pres : List UInt8) (o : Opcode) : Decidable (o.Valid pres) := by
  cases o <;> unfold Opcode.Valid <;> infer_instance

/-- The immediates of the `0F` map. -/
def immTwo (op : UInt8) : Nat :=
  if op = 0x0f ∨ (0x70 ≤ op ∧ op ≤ 0x73) ∨ op = 0xa4 ∨ op = 0xac ∨ op = 0xba ∨ op = 0xc2 ∨
    (0xc4 ≤ op ∧ op ≤ 0xc6) then 1 else 0

/-- The size of the immediate behind the operand, whose ModRM byte has the register field `reg`. -/
def Opcode.immSize (pres : List UInt8) (reg : UInt8) : Opcode → Nat
  | .one op =>
    if op = 0x6b ∨ op = 0x80 ∨ op = 0x83 ∨ op = 0xc0 ∨ op = 0xc1 ∨ op = 0xc6 then 1
    else if op = 0x69 ∨ op = 0x81 ∨ op = 0xc7 then immZ pres
    else if op = 0xf6 ∧ reg < 2 then 1
    else if op = 0xf7 ∧ reg < 2 then immZ pres
    else 0
  | .two op | .vex2 _ op => immTwo op
  | .three38 _ => 0
  | .three3A _ => 1
  | .vex3 p₀ _ op => if vexMap p₀ = 1 then immTwo op else if vexMap p₀ = 3 then 1 else 0
  | .evex p₀ _ _ op => if evexMap p₀ = 1 then immTwo op else if evexMap p₀ = 3 then 1 else 0

/-! ### Pc-relative instructions -/

/-- What is relative to the address of the instruction, with all of the opcode: a branch of eight or of
32 bits, a conditional branch of 32 bits, `xbegin`, or a `%rip`-relative operand. -/
inductive Form where
  | short (op : UInt8)
  | near (op : UInt8)
  | jcc (op : UInt8)
  | xbegin
  | operand (o : Opcode) (reg : UInt8)
  deriving DecidableEq, Repr

def isJcc8 (op : UInt8) : Bool := 0x70 ≤ op ∧ op ≤ 0x7f
def isJcc32 (op : UInt8) : Bool := 0x80 ≤ op ∧ op ≤ 0x8f

/-- `loopne`, `loope` and `loop`. -/
def isLoop (op : UInt8) : Bool := 0xe0 ≤ op ∧ op ≤ 0xe2

/-- The ModRM byte of a `%rip`-relative operand. -/
def ripModRM (reg : UInt8) : UInt8 := (reg &&& 0x7) <<< 3 ||| 0x05

/-- What is in front of the displacement, after the prefixes. -/
def Form.head : Form → List UInt8
  | .short op => [op]
  | .near op => [op]
  | .jcc op => [0x0f, op]
  | .xbegin => [0xc7, 0xf8]
  | .operand o reg => o.bytes ++ [ripModRM reg]

def Form.Valid (pres : List UInt8) : Form → Prop
  | .short op => (∀ b ∈ pres, isLegacy b ∨ isREX b) ∧ (isJcc8 op ∨ isLoop op ∨ op = 0xe3 ∨ op = 0xeb)
  | .near op => (∀ b ∈ pres, isLegacy b ∨ isREX b) ∧ (op = 0xe8 ∨ op = 0xe9)
  | .jcc op => (∀ b ∈ pres, isLegacy b ∨ isREX b) ∧ isJcc32 op
  | .xbegin => ∀ b ∈ pres, isLegacy b ∨ isREX b
  | .operand o reg => o.Valid pres ∧ reg < 8

instance (pres : List UInt8) (f : Form) : Decidable (f.Valid pres) := by
  cases f <;> unfold Form.Valid <;> infer_instance

def Form.dispSize : Form → Nat
  | .short _ => 1
  | _ => 4

def Form.immSize (pres : List UInt8) : Form → Nat
  | .operand o reg => o.immSize pres reg
  | _ => 0

/-- A valid instruction whose meaning depends on its address. -/
structure PCRelative where
  pres : List UInt8
  form : Form
  disp : List UInt8
  imm : List UInt8
  valid : form.Valid pres
  disp_size : disp.length = form.dispSize
  imm_size : imm.length = form.immSize pres
  short_enough : (pres ++ form.head ++ disp ++ imm).length ≤ 15

namespace PCRelative

def bytes (x : PCRelative) : List UInt8 := x.pres ++ x.form.head ++ x.disp ++ x.imm

/-- Where the displacement is. -/
def index (x : PCRelative) : Nat := x.pres.length + x.form.head.length

end PCRelative

namespace PCRelative

/-- The displacement. -/
def rel (x : PCRelative) : Int :=
  match x.form with
  | .short _ => word8 x.disp 0
  | _ => word32 x.disp 0

/-- Whether the instruction is a branch or a call, and not one with an operand. -/
def IsBranch (x : PCRelative) : Prop :=
  match x.form with
  | .operand _ _ => False
  | _ => True

end PCRelative

/-! ### Indirect calls -/

/-- The size of an operand: its ModRM byte, the SIB byte that is behind it if there is one, and the
displacement. -/
def operandSize (modRM sib : UInt8) : Nat :=
  let mod := modRM >>> 6
  let rm := modRM &&& 0x7
  if mod = 3 then 1
  else
    let head := if rm = 4 then 2 else 1
    let disp :=
      if mod = 1 then 1
      else if mod = 2 ∨ rm = 5 ∨ (rm = 4 ∧ sib &&& 0x7 = 5) then 4
      else 0
    head + disp

/-- An indirect near call, with all of the operand. -/
structure IndirectCall where
  pres : List UInt8
  operand : List UInt8
  valid : ∀ b ∈ pres, isLegacy b ∨ isREX b
  reg : (byteAt operand 0 &&& 0x38) >>> 3 = 2
  operand_size : operand.length = operandSize (byteAt operand 0) (byteAt operand 1)

def IndirectCall.bytes (x : IndirectCall) : List UInt8 := x.pres ++ 0xff :: x.operand

end X86
