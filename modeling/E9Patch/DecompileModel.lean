import E9Patch.CExpressions

/-!
Decompiled expressions (`analysis/e9decompile.c`): the values of the intermediate representation and the text that is
written for them. Calls, dereferences other than loads and the operations that only leave a comment are left out, and
memory can always be allocated.
-/

namespace E9Patch
open Numerals

/-! ### Intermediate representation -/

inductive E9DataType where
  | VOID | INT8 | INT16 | INT32 | INT64 | UINT8 | UINT16 | UINT32 | UINT64 | FLOAT | DOUBLE | POINTER
  | ARRAY | STRUCT | UNION | FUNCTION | UNKNOWN
  deriving DecidableEq, Repr

/-- The operations with two operands. -/
inductive E9IROp where
  | ADD | SUB | MUL | DIV | MOD | AND | OR | XOR | SHL | SHR | SAR
  | EQ | NE | LT | LE | GT | GE | LTU | LEU | GTU | GEU
  deriving DecidableEq, Repr

/-- The name of a variable, as a C string. -/
abbrev VarName := { s : List UInt8 // 0 ∉ s }

/-- An expression tree. A type is only told by its kind. -/
inductive E9IRValue where
  | null
  | CONST (constant : BitVec 64)
  | REG (reg : BitVec 32)
  | LOCAL (index : BitVec 32) (name : Option VarName)
  | GLOBAL (index : BitVec 32) (name : Option VarName)
  | PARAM (index : BitVec 32) (name : Option VarName)
  | TEMP (index : BitVec 32)
  | binary (op : E9IROp) (left right : E9IRValue)
  | NEG (operand : E9IRValue)
  | NOT (operand : E9IRValue)
  | LOAD (addr : E9IRValue) (size : BitVec 32)
  | ADDRESS (operand : E9IRValue)
  | CAST (type : Option E9DataType) (operand : E9IRValue)
  deriving DecidableEq, Repr

/-! ### Output -/

/-- The output buffer of a decompiler, and what has been written to it. -/
structure E9Decompile where
  output : List UInt8
  output_capacity : Nat
  fits : output.length ≤ output_capacity

/-- The capacity that is ensured. -/
def new_cap (dc : E9Decompile) : Nat :=
  let needed := 1024
  if dc.output.length + needed > dc.output_capacity then dc.output_capacity * 2 + needed else dc.output_capacity

/-- A text that does not fit into the buffer is cut off, and the size of the output runs past its end. -/
def emit (dc : E9Decompile) (s : List UInt8) : Option E9Decompile :=
  if h : (dc.output ++ s).length < new_cap dc then some ⟨dc.output ++ s, new_cap dc, Nat.le_of_lt h⟩ else none

/-! ### IR value to C expression -/

def type_to_c : Option E9DataType → List UInt8
  | none => ascii "int64_t"
  | some .VOID => ascii "void"
  | some .INT8 => ascii "int8_t"
  | some .INT16 => ascii "int16_t"
  | some .INT32 => ascii "int32_t"
  | some .INT64 => ascii "int64_t"
  | some .UINT8 => ascii "uint8_t"
  | some .UINT16 => ascii "uint16_t"
  | some .UINT32 => ascii "uint32_t"
  | some .UINT64 => ascii "uint64_t"
  | some .FLOAT => ascii "float"
  | some .DOUBLE => ascii "double"
  | some .POINTER => ascii "void *"
  | some _ => ascii "int64_t"

/-- The text goes through `"%s"`, so that both characters of `"%%"` are written. -/
def op_to_c : E9IROp → List UInt8
  | .ADD => ascii "+"
  | .SUB => ascii "-"
  | .MUL => ascii "*"
  | .DIV => ascii "/"
  | .MOD => ascii "%%"
  | .AND => ascii "&"
  | .OR => ascii "|"
  | .XOR => ascii "^"
  | .SHL => ascii "<<"
  | .SHR => ascii ">>"
  | .SAR => ascii ">>"
  | .EQ => ascii "=="
  | .NE => ascii "!="
  | .LT => ascii "<"
  | .LE => ascii "<="
  | .GT => ascii ">"
  | .GE => ascii ">="
  | .LTU => ascii "<"
  | .LEU => ascii "<="
  | .GTU => ascii ">"
  | .GEU => ascii ">="

def op_precedence : E9IROp → Nat
  | .MUL | .DIV | .MOD => 3
  | .ADD | .SUB => 4
  | .SHL | .SHR | .SAR => 5
  | .LT | .LE | .GT | .GE | .LTU | .LEU | .GTU | .GEU => 6
  | .EQ | .NE => 7
  | .AND => 8
  | .XOR => 9
  | .OR => 10

/-- Register names for x86-64. -/
def x64_reg_names : List (List UInt8) :=
  ["rax", "rbx", "rcx", "rdx", "rsi", "rdi", "rbp", "rsp", "r8", "r9", "r10", "r11", "r12", "r13", "r14", "r15",
    "rip", "rflags", "ah", "bh", "ch", "dh"].map ascii

def X64_REG_COUNT : Nat := 22

/-- `"%d"` and `"%lld"`. -/
def decimal {w : Nat} (x : BitVec w) : List UInt8 := signedNumeral x.toInt

def constText (constant : BitVec 64) : List UInt8 :=
  if constant.toInt < 0 then ascii "(" ++ decimal constant ++ ascii ")"
  else if constant.toInt > 0xFFFF then ascii "0x" ++ numeral 16 constant.toNat
  else decimal constant

def regText (reg : BitVec 32) : List UInt8 :=
  if 0 ≤ reg.toInt ∧ reg.toInt < X64_REG_COUNT then ascii "_" ++ x64_reg_names.getD reg.toInt.toNat []
  else ascii "_reg" ++ decimal reg

def varText (stem : List UInt8) (index : BitVec 32) (name : Option VarName) : List UInt8 :=
  match name with
  | some name => name.val
  | none => stem ++ decimal index

def loadType (size : BitVec 32) : List UInt8 :=
  if size = 1 then ascii "int8_t"
  else if size = 2 then ascii "int16_t"
  else if size = 4 then ascii "int32_t"
  else ascii "int64_t"

def emit_value (dc : E9Decompile) (v : E9IRValue) (precedence : Int) : Option E9Decompile :=
  match v with
  | .null => emit dc (ascii "0")
  | .CONST constant => emit dc (constText constant)
  | .REG reg => emit dc (regText reg)
  | .LOCAL index name => emit dc (varText (ascii "local_") index name)
  | .PARAM index name => emit dc (varText (ascii "param_") index name)
  | .TEMP index => emit dc (ascii "t" ++ decimal index)
  | .GLOBAL index name => emit dc (varText (ascii "g_") index name)
  | .binary op left right => do
    let my_prec := op_precedence op
    let need_parens := (my_prec : Int) ≥ precedence
    let dc ← if need_parens then emit dc (ascii "(") else some dc
    let dc ← emit_value dc left my_prec
    let dc ← emit dc (ascii " " ++ op_to_c op ++ ascii " ")
    let dc ← emit_value dc right my_prec
    if need_parens then emit dc (ascii ")") else some dc
  | .NEG operand => do
    let dc ← emit dc (ascii "-")
    emit_value dc operand 2
  | .NOT operand => do
    let dc ← emit dc (ascii "~")
    emit_value dc operand 2
  | .LOAD addr size => do
    let dc ← emit dc (ascii "*(" ++ loadType size ++ ascii " *)")
    emit_value dc addr 2
  | .ADDRESS operand => do
    let dc ← emit dc (ascii "&")
    emit_value dc operand 2
  | .CAST type operand => do
    let dc ← emit dc (ascii "(" ++ type_to_c type ++ ascii ")")
    emit_value dc operand 2

/-! ### What an IR value means -/

/-- The names of the variables, as the text has them: the values are those of the C variables of the names. -/
def varName : E9IRValue → Option (List UInt8)
  | .REG reg => some (regText reg)
  | .LOCAL index name => some (varText (ascii "local_") index name)
  | .PARAM index name => some (varText (ascii "param_") index name)
  | .TEMP index => some (ascii "t" ++ decimal index)
  | .GLOBAL index name => some (varText (ascii "g_") index name)
  | _ => none

/-- Shifts by 64 or more, and divisions by zero, have no value. -/
def E9IROp.apply : E9IROp → BitVec 64 → BitVec 64 → Option (BitVec 64)
  | .ADD, x, y => some (x + y)
  | .SUB, x, y => some (x - y)
  | .MUL, x, y => some (x * y)
  | .DIV, x, y => if y = 0 then none else some (x.sdiv y)
  | .MOD, x, y => if y = 0 then none else some (x.srem y)
  | .AND, x, y => some (x &&& y)
  | .OR, x, y => some (x ||| y)
  | .XOR, x, y => some (x ^^^ y)
  | .SHL, x, y => if y.toNat < 64 then some (x <<< y.toNat) else none
  | .SHR, x, y => if y.toNat < 64 then some (x >>> y.toNat) else none
  | .SAR, x, y => if y.toNat < 64 then some (x.sshiftRight y.toNat) else none
  | .EQ, x, y => some (CLang.ofBool (x = y))
  | .NE, x, y => some (CLang.ofBool (x ≠ y))
  | .LT, x, y => some (CLang.ofBool (x.slt y))
  | .LE, x, y => some (CLang.ofBool (x.sle y))
  | .GT, x, y => some (CLang.ofBool (y.slt x))
  | .GE, x, y => some (CLang.ofBool (y.sle x))
  | .LTU, x, y => some (CLang.ofBool (x.ult y))
  | .LEU, x, y => some (CLang.ofBool (x.ule y))
  | .GTU, x, y => some (CLang.ofBool (y.ult x))
  | .GEU, x, y => some (CLang.ofBool (y.ule x))

/-- The number that a cast makes of another one. A type that is not told, or is neither an integer nor a floating-point
type, leaves it as it is; the numbers of floating-point types are not among the values. -/
def castValue (type : Option E9DataType) (x : BitVec 64) : Option (BitVec 64) :=
  match type with
  | some .VOID => none
  | some .INT8 => some (CLang.extend true 8 x)
  | some .INT16 => some (CLang.extend true 16 x)
  | some .INT32 => some (CLang.extend true 32 x)
  | some .UINT8 => some (CLang.extend false 8 x)
  | some .UINT16 => some (CLang.extend false 16 x)
  | some .UINT32 => some (CLang.extend false 32 x)
  | some .FLOAT => none
  | some .DOUBLE => none
  | _ => some x

/-- The number in memory, with its sign. A size that no integer type has counts as 8. -/
def loadValue (env : CLang.Env) (size : BitVec 32) (a : BitVec 64) : BitVec 64 :=
  if size = 1 then env.loadInt true 8 a
  else if size = 2 then env.loadInt true 16 a
  else if size = 4 then env.loadInt true 32 a
  else env.loadInt true 64 a

/-- The value of a tree. Variables and loads have an address. -/
def irValue (env : CLang.Env) : E9IRValue → Option (BitVec 64)
  | .null => some 0
  | .CONST constant => some constant
  | .binary op left right => (irValue env left).bind fun x => (irValue env right).bind fun y => op.apply x y
  | .NEG operand => (irValue env operand).map fun x => -x
  | .NOT operand => (irValue env operand).map fun x => ~~~x
  | .LOAD addr size => (irValue env addr).map (loadValue env size)
  | .ADDRESS (.LOAD addr _) => irValue env addr
  | .ADDRESS operand => (varName operand).map env.place
  | .CAST type operand => (irValue env operand).bind (castValue type)
  | v => (varName v).map env.var

end E9Patch
