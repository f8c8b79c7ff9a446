import E9Patch.AllocModel
import E9Patch.Bytes

/-!
The matching expressions of the frontend (`e9action.cpp`): values, their comparison, and `matchDoEval`.
The attributes of the instruction, regular expressions, and what a value that is no integer reads as
through the union are parameters. An expression that fails raises an error, which ends the program.
-/

namespace E9Tool
open Bytes
open E9Patch (toU64 INTPTR_MIN INTPTR_MAX)

/-- Registers, and the kinds of operands, by their number. -/
abbrev Register := UInt8
abbrev OpType := Int
abbrev Access := Nat

structure MemOp where
  disp : Int
  seg : Register
  base : Register
  index : Register
  scale : UInt8
  size : UInt8
  deriving DecidableEq, Repr

/-- The values that a set can contain. -/
inductive Atom (ρ : Type) where
  | NIL
  | INTEGER (i : Int)
  | OPERAND (op : OpType)
  | ACCESS (access : Access)
  | REGISTER (reg : Register)
  | MEMORY (mem : MemOp)
  | STRING (str : List UInt8)
  | REGEX (regex : ρ)
  deriving DecidableEq, Repr

/-- A match value. A set has the elements up to its terminator. -/
inductive MatchVal (ρ : Type) where
  | UNDEFINED
  | atom (a : Atom ρ)
  | SET (vals : List (Atom ρ))
  deriving DecidableEq, Repr

inductive MatchError where
  | cannotCompare
  | cannotCast
  | unknownType
  deriving DecidableEq, Repr

/-- What an expression is evaluated in: the attributes of the instruction, and the code that is not
modelled. `bits` is the `i` of a value that is no integer. -/
structure Env (ν ρ : Type) where
  var : ν → MatchVal ρ
  regexMatch : ρ → List UInt8 → Bool
  bits : MatchVal ρ → Int

variable {ν ρ : Type}

namespace MatchVal

def INTEGER (i : Int) : MatchVal ρ := .atom (.INTEGER i)
def bool (b : Bool) : MatchVal ρ := INTEGER (if b then 1 else 0)

/-- The member `i` of the union. The constructors of undefined values and of `nil` set it to zero. -/
def i (env : Env ν ρ) : MatchVal ρ → Int
  | .atom (.INTEGER i) => i
  | .UNDEFINED | .atom .NIL => 0
  | v => env.bits v

end MatchVal

/-! ### Comparison -/

def Atom.type : Atom ρ → Nat
  | .NIL => 0x0001
  | .INTEGER _ => 0x0002
  | .OPERAND _ => 0x0004
  | .ACCESS _ => 0x0008
  | .REGISTER _ => 0x0010
  | .MEMORY _ => 0x0020
  | .STRING _ => 0x0040
  | .REGEX _ => 0x0080

def MatchVal.type : MatchVal ρ → Nat
  | .UNDEFINED => 0x0000
  | .atom a => a.type
  | .SET _ => 0x0100

/-- `x` against `y`, as -1, 0 or 1. -/
def order {α : Type} [LT α] [DecidableLT α] (x y : α) : Int := if y < x then 1 else if x < y then -1 else 0

def MemOp.compare (x y : MemOp) : Int :=
  if y.seg ≠ x.seg then order x.seg y.seg
  else if y.base ≠ x.base then order x.base y.base
  else if y.index ≠ x.index then order x.index y.index
  else if y.scale ≠ x.scale then order x.scale y.scale
  else if y.disp ≠ x.disp then order x.disp y.disp
  else if y.size ≠ x.size then order x.size y.size
  else 0

/-- Value comparison, of values that are no sets. -/
def Atom.compare (x y : Atom ρ) : Except MatchError Int :=
  if y.type < x.type then .ok 1
  else if y.type > x.type then .ok (-1)
  else match x, y with
    | .INTEGER i, .INTEGER j => .ok (order i j)
    | .OPERAND o, .OPERAND p => .ok (order o p)
    | .ACCESS a, .ACCESS b => .ok (order a b)
    | .REGISTER r, .REGISTER q => .ok (order r q)
    | .MEMORY m, .MEMORY n => .ok (m.compare n)
    | .STRING s, .STRING t => .ok (order s t)
    | .REGEX _, .REGEX _ => .error .cannotCompare
    | _, _ => .ok 0

/-- Value equality, of values that are no sets. -/
def Atom.equal (env : Env ν ρ) (x y : Atom ρ) : Except MatchError Bool :=
  match x, y with
  | .STRING s, .REGEX r => .ok (env.regexMatch r s)
  | .REGEX r, .STRING s => .ok (env.regexMatch r s)
  | x, y => (x.compare y).map (· == 0)

/-- Set membership. -/
def isMember (env : Env ν ρ) (val : Atom ρ) (set : List (Atom ρ)) : Except MatchError Bool :=
  set.anyM (val.equal env)

/-- Set subset. -/
def isSubset (env : Env ν ρ) (set1 set2 : List (Atom ρ)) : Except MatchError Bool :=
  set1.allM (isMember env · set2)

/-- The least element of `set1` that is not in `set2`. -/
def leastDifference (env : Env ν ρ) (set1 set2 : List (Atom ρ)) : Except MatchError (Option (Atom ρ)) :=
  set1.foldlM (fun least val => do
    if ← isMember env val set2 then return least
    match least with
    | none => return some val
    | some l => if (← val.compare l) < 0 then return some val else return least) none

/-- Set comparison. -/
def setCompare (env : Env ν ρ) (set1 set2 : List (Atom ρ)) : Except MatchError Int := do
  match ← leastDifference env set1 set2, ← leastDifference env set2 set1 with
  | none, none => return 0
  | none, some _ => return 1
  | some _, none => return -1
  | some min1, some min2 => if (← min1.compare min2) < 0 then return -1 else return 1

/-- Value comparison. -/
def MatchVal.compare (env : Env ν ρ) (x y : MatchVal ρ) : Except MatchError Int :=
  if y.type < x.type then .ok 1
  else if y.type > x.type then .ok (-1)
  else match x, y with
    | .atom a, .atom b => a.compare b
    | .SET s, .SET t => setCompare env t s
    | _, _ => .error .unknownType

/-- Value equality. -/
def MatchVal.equal (env : Env ν ρ) (x y : MatchVal ρ) : Except MatchError Bool :=
  match x, y with
  | .atom a, .atom b => a.equal env b
  | x, y => (x.compare env y).map (· == 0)

/-! ### Expressions -/

inductive CompareOp where
  | EQ
  | NEQ
  | LT
  | LEQ
  | GT
  | GEQ
  | IN
  deriving DecidableEq, Repr

inductive BinaryOp where
  | ADD
  | SUB
  | MUL
  | DIV
  | MOD
  | BIT_AND
  | BIT_OR
  | BIT_XOR
  | LSHIFT
  | RSHIFT
  deriving DecidableEq, Repr

/-- A match expression. -/
inductive MatchExpr (ν ρ : Type) where
  | VAL (val : MatchVal ρ)
  | VAR (var : ν)
  | DEFINED (lhs : MatchExpr ν ρ)
  | NOT (lhs : MatchExpr ν ρ)
  | AND (lhs rhs : MatchExpr ν ρ)
  | OR (lhs rhs : MatchExpr ν ρ)
  | COMPARE (op : CompareOp) (lhs rhs : MatchExpr ν ρ)
  | NEG (lhs : MatchExpr ν ρ)
  | BIT_NOT (lhs : MatchExpr ν ρ)
  | BINARY (op : BinaryOp) (lhs rhs : MatchExpr ν ρ)
  deriving DecidableEq, Repr

/-- Cast to bool. -/
def matchCastToBool : MatchVal ρ → Except MatchError Bool
  | .UNDEFINED => .ok false
  | .atom (.INTEGER i) => .ok (i ≠ 0)
  | _ => .error .cannotCast

/-- A comparison of two values that are both defined. -/
def compareVals (env : Env ν ρ) (op : CompareOp) (lhs rhs : MatchVal ρ) : Except MatchError Bool :=
  match op with
  | .EQ => lhs.equal env rhs
  | .NEQ => (lhs.equal env rhs).map (!·)
  | .LT => (lhs.compare env rhs).map (· < 0)
  | .LEQ => (lhs.compare env rhs).map (· ≤ 0)
  | .GT => (lhs.compare env rhs).map (· > 0)
  | .GEQ => (lhs.compare env rhs).map (· ≥ 0)
  | .IN =>
    match lhs, rhs with
    | .atom a, .SET s => isMember env a s
    | .SET t, .SET s => isSubset env t s
    | _, _ => .ok false

/-- `check128`: a result has to fit into 64 bits. -/
def check128 (i128 : Int) : MatchVal ρ :=
  if i128 < INTPTR_MIN ∨ i128 > INTPTR_MAX then .UNDEFINED else .INTEGER i128

/-- The binary operators, on the integers that are read from both sides. -/
def binaryOp (op : BinaryOp) (lhs rhs : Int) : MatchVal ρ :=
  match op with
  | .ADD => check128 (lhs + rhs)
  | .SUB => check128 (lhs - rhs)
  | .MUL => check128 (lhs * rhs)
  | .DIV => if rhs = 0 then .UNDEFINED else check128 (lhs.tdiv rhs)
  | .MOD => if rhs = 0 then .UNDEFINED else check128 (lhs.tmod rhs)
  | .BIT_AND => .INTEGER (signed64 (toU64 lhs &&& toU64 rhs : Nat))
  | .BIT_OR => .INTEGER (signed64 (toU64 lhs ||| toU64 rhs : Nat))
  | .BIT_XOR => .INTEGER (signed64 (toU64 lhs ^^^ toU64 rhs : Nat))
  | .LSHIFT =>
    .INTEGER (if rhs ≤ 0 then lhs else if rhs ≥ 64 then 0 else signed64 (toU64 lhs <<< rhs.toNat % 2 ^ 64 : Nat))
  | .RSHIFT => .INTEGER (if rhs ≤ 0 then lhs else if rhs ≥ 64 then 0 else lhs / 2 ^ rhs.toNat)

/-- Evaluate a matching. -/
def matchDoEval (env : Env ν ρ) : MatchExpr ν ρ → Except MatchError (MatchVal ρ)
  | .VAL val => .ok val
  | .VAR var => .ok (env.var var)
  | .NOT lhs => do
    let res ← matchCastToBool (← matchDoEval env lhs)
    return .bool (!res)
  | .AND lhs rhs => do
    let res ← matchCastToBool (← matchDoEval env lhs)
    if !res then return .bool false
    return .bool (← matchCastToBool (← matchDoEval env rhs))
  | .OR lhs rhs => do
    let res ← matchCastToBool (← matchDoEval env lhs)
    if res then return .bool true
    return .bool (← matchCastToBool (← matchDoEval env rhs))
  | .DEFINED lhs => do
    let lhs ← matchDoEval env lhs
    return .bool (lhs.type ≠ 0x0000)
  | .COMPARE op lhs rhs => do
    let lhs ← matchDoEval env lhs
    if lhs.type = 0x0000 then return .bool false
    let rhs ← matchDoEval env rhs
    if rhs.type = 0x0000 then return .bool false
    return .bool (← compareVals env op lhs rhs)
  | .BINARY op lhs rhs => do
    let lhs ← matchDoEval env lhs
    if lhs.type ≠ 0x0002 then return .UNDEFINED
    let rhs ← matchDoEval env rhs
    -- the source looks at the type of `lhs` a second time
    if lhs.type ≠ 0x0002 then return .UNDEFINED
    return binaryOp op (lhs.i env) (rhs.i env)
  | .NEG lhs => do
    let lhs ← matchDoEval env lhs
    if lhs.type ≠ 0x0002 then return .UNDEFINED
    return .INTEGER (signed64 (-(lhs.i env)))
  | .BIT_NOT lhs => do
    let lhs ← matchDoEval env lhs
    if lhs.type ≠ 0x0002 then return .UNDEFINED
    let res_i : Int := 0
    return .INTEGER (signed64 (2 ^ 64 - 1 - toU64 res_i))

/-- Evaluate a matching to a Boolean. -/
def matchEval (env : Env ν ρ) (expr : MatchExpr ν ρ) : Except MatchError Bool := do
  matchCastToBool (← matchDoEval env expr)

end E9Tool
