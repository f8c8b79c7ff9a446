import E9Patch.CTokens

/-!
Expressions of C without calls, subscripts, members, conditions and assignments: the grammar with its levels of
precedence, which derives at most one tree for a sequence of tokens, and the types and values of a tree whose variables
are of type `int64_t`. The types are those of a machine with 64-bit addresses and a `long` of 64 bits, and arithmetic
wraps around.
-/

namespace CLang
open Numerals

/-! ### Trees -/

inductive UnOp where
  | minus | plus | complement | not | address | deref | increment | decrement
  deriving DecidableEq, Repr

def UnOp.text : UnOp → List UInt8
  | .minus => ascii "-"
  | .plus => ascii "+"
  | .complement => ascii "~"
  | .not => ascii "!"
  | .address => ascii "&"
  | .deref => ascii "*"
  | .increment => ascii "++"
  | .decrement => ascii "--"

inductive BinOp where
  | mul | div | mod | add | sub | shl | shr | lt | le | gt | ge | eq | ne | and | xor | or | logicalAnd | logicalOr
  deriving DecidableEq, Repr

def BinOp.text : BinOp → List UInt8
  | .mul => ascii "*"
  | .div => ascii "/"
  | .mod => ascii "%"
  | .add => ascii "+"
  | .sub => ascii "-"
  | .shl => ascii "<<"
  | .shr => ascii ">>"
  | .lt => ascii "<"
  | .le => ascii "<="
  | .gt => ascii ">"
  | .ge => ascii ">="
  | .eq => ascii "=="
  | .ne => ascii "!="
  | .and => ascii "&"
  | .xor => ascii "^"
  | .or => ascii "|"
  | .logicalAnd => ascii "&&"
  | .logicalOr => ascii "||"

/-- The level of the expressions that an operator makes. Operands bind tighter on lower levels. -/
def BinOp.level : BinOp → Nat
  | .mul | .div | .mod => 3
  | .add | .sub => 4
  | .shl | .shr => 5
  | .lt | .le | .gt | .ge => 6
  | .eq | .ne => 7
  | .and => 8
  | .xor => 9
  | .or => 10
  | .logicalAnd => 11
  | .logicalOr => 12

/-- A type by its name, or a pointer to it. -/
structure TypeName where
  base : List UInt8
  pointer : Bool
  deriving DecidableEq, Repr

inductive Expr where
  | var (name : List UInt8)
  | const (decimal : Bool) (n : Nat)
  | unary (op : UnOp) (e : Expr)
  | binary (op : BinOp) (l r : Expr)
  | cast (T : TypeName) (e : Expr)
  deriving DecidableEq, Repr

/-! ### Grammar -/

def keywords : List (List UInt8) :=
  ["auto", "break", "case", "char", "const", "continue", "default", "do", "double", "else", "enum", "extern", "float",
    "for", "goto", "if", "inline", "int", "long", "register", "restrict", "return", "short", "signed", "sizeof",
    "static", "struct", "switch", "typedef", "union", "unsigned", "void", "volatile", "while", "_Alignas", "_Alignof",
    "_Atomic", "_Bool", "_Complex", "_Generic", "_Imaginary", "_Noreturn", "_Static_assert", "_Thread_local"].map ascii

def lparen : Token := .punct (ascii "(")
def rparen : Token := .punct (ascii ")")

def UnOp.token (op : UnOp) : Token := .punct op.text
def BinOp.token (op : BinOp) : Token := .punct op.text

def TypeName.tokens (T : TypeName) : List Token := .ident T.base :: if T.pointer then [.punct (ascii "*")] else []

/-- The level of every expression. -/
def topLevel : Nat := 15

section
variable (types : List (List UInt8))

/-- The tokens are an expression of a level: 1 are the primary ones, 2 those with an operator or a cast in front, and
from 3 on those of the binary operators, which associate to the left. -/
inductive Derives : Nat → List Token → Expr → Prop where
  | var {x : List UInt8} : x ∉ keywords → x ∉ types → Derives 1 [.ident x] (.var x)
  | const (decimal : Bool) (n : Nat) : Derives 1 [.number decimal n] (.const decimal n)
  | paren {ts : List Token} {e : Expr} : Derives topLevel ts e → Derives 1 (lparen :: (ts ++ [rparen])) e
  | unary (op : UnOp) {ts : List Token} {e : Expr} : Derives 2 ts e → Derives 2 (op.token :: ts) (.unary op e)
  | cast {T : TypeName} {ts : List Token} {e : Expr} : T.base ∈ types → Derives 2 ts e →
      Derives 2 (lparen :: (T.tokens ++ rparen :: ts)) (.cast T e)
  | binary (op : BinOp) {ts us : List Token} {l r : Expr} : Derives op.level ts l → Derives (op.level - 1) us r →
      Derives op.level (ts ++ op.token :: us) (.binary op l r)
  | up {n m : Nat} {ts : List Token} {e : Expr} : Derives n ts e → n ≤ m → Derives m ts e

/-- How far an expression is read: an operand, an expression of a level, or what goes on with one that was read. -/
inductive Reading where
  | operand
  | level (n : Nat)
  | climb (n : Nat) (l : Expr)

/-- The expression in front of the tokens, as it is read from left to right, and what is behind it. -/
inductive Reads : Reading → List Token → Expr → List Token → Prop where
  | var {x : List UInt8} {ts : List Token} : x ∉ types → Reads .operand (.ident x :: ts) (.var x) ts
  | const {decimal : Bool} {n : Nat} {ts : List Token} :
      Reads .operand (.number decimal n :: ts) (.const decimal n) ts
  | paren {ts rest : List Token} {e : Expr} : (∀ x ∈ types, ts.head? ≠ some (.ident x)) →
      Reads (.level topLevel) ts e (rparen :: rest) → Reads .operand (lparen :: ts) e rest
  | unary {op : UnOp} {ts rest : List Token} {e : Expr} : Reads .operand ts e rest →
      Reads .operand (op.token :: ts) (.unary op e) rest
  | cast {T : TypeName} {ts rest : List Token} {e : Expr} : T.base ∈ types → Reads .operand ts e rest →
      Reads .operand (lparen :: (T.tokens ++ rparen :: ts)) (.cast T e) rest
  | level {n : Nat} {ts us rest : List Token} {l e : Expr} : Reads .operand ts l us → Reads (.climb n l) us e rest →
      Reads (.level n) ts e rest
  | more {op : BinOp} {n : Nat} {ts us rest : List Token} {l r e : Expr} : op.level ≤ n →
      Reads (.level (op.level - 1)) ts r us → Reads (.climb n (.binary op l r)) us e rest →
      Reads (.climb n l) (op.token :: ts) e rest
  | stop {n : Nat} {ts : List Token} {l : Expr} : (∀ op : BinOp, op.level ≤ n → ts.head? ≠ some op.token) →
      Reads (.climb n l) ts l ts

end

variable {types : List (List UInt8)}

/-! ### Unambiguity -/

theorem UnOp.token_injective {op op' : UnOp} (h : op.token = op'.token) : op = op' := by
  revert h
  cases op <;> cases op' <;> decide

theorem BinOp.token_injective {op op' : BinOp} (h : op.token = op'.token) : op = op' := by
  revert h
  cases op <;> cases op' <;> decide

theorem UnOp.token_ne_lparen (op : UnOp) : op.token ≠ lparen := by
  cases op <;> decide

theorem BinOp.token_ne_rparen (op : BinOp) : op.token ≠ rparen := by
  cases op <;> decide

theorem BinOp.three_le_level (op : BinOp) : 3 ≤ op.level := by
  cases op <;> decide

/-- A cast is read in one way. -/
theorem TypeName.tokens_injective {T T' : TypeName} {ts us : List Token}
    (h : T.tokens ++ rparen :: ts = T'.tokens ++ rparen :: us) : T = T' ∧ ts = us := by
  obtain ⟨base, pointer⟩ := T
  obtain ⟨base', pointer'⟩ := T'
  have hstar : Token.punct (ascii "*") ≠ rparen := by decide
  cases pointer <;> cases pointer' <;> simp [tokens, hstar, hstar.symm] at h ⊢ <;> exact h

/-- Reading is deterministic. -/
theorem Reads.unique {d : Reading} {ts rest rest' : List Token} {e e' : Expr} (h : Reads types d ts e rest)
    (h' : Reads types d ts e' rest') : e = e' ∧ rest = rest' := by
  induction h generalizing e' rest' with
  | var _ =>
      cases h' with
      | var _ => exact ⟨rfl, rfl⟩
  | const =>
      cases h' with
      | const => exact ⟨rfl, rfl⟩
  | @paren ts rest e hhead _ ih =>
      generalize hts : lparen :: ts = us at h'
      cases h' with
      | var _ => cases hts
      | const => cases hts
      | paren _ hlevel =>
          obtain rfl := (List.cons.inj hts).2
          obtain ⟨rfl, heq⟩ := ih hlevel
          exact ⟨rfl, (List.cons.inj heq).2⟩
      | unary _ => exact absurd (List.cons.inj hts).1.symm (UnOp.token_ne_lparen _)
      | cast hbase _ =>
          obtain rfl := (List.cons.inj hts).2
          exact absurd rfl (hhead _ hbase)
  | @unary op ts rest e _ ih =>
      generalize hts : op.token :: ts = us at h'
      cases h' with
      | var _ => cases hts
      | const => cases hts
      | paren _ _ => exact absurd (List.cons.inj hts).1 (UnOp.token_ne_lparen _)
      | unary hoperand =>
          obtain ⟨hop, rfl⟩ := List.cons.inj hts
          obtain ⟨rfl, rfl⟩ := ih hoperand
          exact ⟨by rw [UnOp.token_injective hop], rfl⟩
      | cast _ _ => exact absurd (List.cons.inj hts).1 (UnOp.token_ne_lparen _)
  | @cast T ts rest e hbase _ ih =>
      generalize hts : lparen :: (T.tokens ++ rparen :: ts) = us at h'
      cases h' with
      | var _ => cases hts
      | const => cases hts
      | paren hhead _ =>
          obtain rfl := (List.cons.inj hts).2
          exact absurd rfl (hhead _ hbase)
      | unary _ => exact absurd (List.cons.inj hts).1.symm (UnOp.token_ne_lparen _)
      | cast _ hoperand =>
          obtain ⟨rfl, rfl⟩ := TypeName.tokens_injective (List.cons.inj hts).2
          obtain ⟨rfl, rfl⟩ := ih hoperand
          exact ⟨rfl, rfl⟩
  | level _ _ ihoperand ihclimb =>
      cases h' with
      | level hoperand hclimb =>
          obtain ⟨rfl, rfl⟩ := ihoperand hoperand
          exact ihclimb hclimb
  | @more op n ts us rest l r e hlevel _ _ ihright ihclimb =>
      generalize hts : op.token :: ts = vs at h'
      cases h' with
      | more _ hright hclimb =>
          obtain ⟨hop, rfl⟩ := List.cons.inj hts
          obtain rfl := BinOp.token_injective hop
          obtain ⟨rfl, rfl⟩ := ihright hright
          exact ihclimb hclimb
      | stop hstop =>
          subst hts
          exact absurd rfl (hstop op hlevel)
  | @stop n ts l hstop =>
      cases h' with
      | more hlevel _ _ => exact absurd rfl (hstop _ hlevel)
      | stop _ => exact ⟨rfl, rfl⟩

theorem Derives.head {n : Nat} {ts : List Token} {e : Expr} (h : Derives types n ts e) :
    ∃ t us, ts = t :: us ∧ ∀ x ∈ types, t ≠ .ident x := by
  induction h with
  | @var x _ htypes =>
      refine ⟨_, _, rfl, fun y hy heq => ?_⟩
      injection heq with heq
      exact htypes (heq ▸ hy)
  | const _ n => exact ⟨_, _, rfl, fun _ _ => nofun⟩
  | paren _ _ => exact ⟨_, _, rfl, fun _ _ => nofun⟩
  | unary _ _ _ => exact ⟨_, _, rfl, fun _ _ => nofun⟩
  | cast _ _ _ => exact ⟨_, _, rfl, fun _ _ => nofun⟩
  | binary op _ _ ih _ =>
      obtain ⟨t, us, rfl, ht⟩ := ih
      exact ⟨t, _, rfl, ht⟩
  | up _ _ ih => exact ih

/-- No operator that binds tighter than a level comes next. -/
def NoTighter (n : Nat) (rest : List Token) : Prop := ∀ op : BinOp, op.level < n → rest.head? ≠ some op.token

/-- What the grammar derives is read, up to the first operator that does not bind tighter. -/
theorem Derives.reads {n : Nat} {ts : List Token} {e : Expr} (h : Derives types n ts e) :
    (n ≤ 2 → ∀ rest, Reads types .operand (ts ++ rest) e rest) ∧
      ∀ m rest, n ≤ m → NoTighter n rest → ∀ e' rest', Reads types (.climb m e) rest e' rest' →
        Reads types (.level m) (ts ++ rest) e' rest' := by
  have hlevel : ∀ {n : Nat} {ts : List Token} {e : Expr}, (∀ rest, Reads types .operand (ts ++ rest) e rest) →
      (n ≤ 2 → ∀ rest, Reads types .operand (ts ++ rest) e rest) ∧
      ∀ m rest, n ≤ m → NoTighter n rest → ∀ e' rest', Reads types (.climb m e) rest e' rest' →
        Reads types (.level m) (ts ++ rest) e' rest' :=
    fun hoperand => ⟨fun _ => hoperand, fun m rest _ _ e' rest' hclimb => .level (hoperand rest) hclimb⟩
  induction h with
  | var _ htypes => exact hlevel fun rest => .var htypes
  | const _ n => exact hlevel fun rest => .const
  | @paren ts e hts ih =>
      refine hlevel fun rest => ?_
      obtain ⟨t, us, rfl, ht⟩ := hts.head
      rw [List.cons_append, List.append_assoc, List.singleton_append]
      refine .paren (fun x hx heq => ht x hx (Option.some.inj heq)) ?_
      have hstop : ∀ n, ∀ op : BinOp, op.level ≤ n → (rparen :: rest).head? ≠ some op.token :=
        fun n op _ heq => op.token_ne_rparen (Option.some.inj heq).symm
      exact ih.2 topLevel (rparen :: rest) (Nat.le_refl _) (fun op _ => hstop op.level op (Nat.le_refl _)) e _
        (.stop (hstop topLevel))
  | unary op _ ih => exact hlevel fun rest => .unary (ih.1 (Nat.le_refl 2) rest)
  | @cast T ts e hbase _ ih =>
      refine hlevel fun rest => ?_
      rw [List.cons_append, List.append_assoc, List.cons_append]
      exact .cast hbase (ih.1 (Nat.le_refl 2) rest)
  | @binary op ts us l r _ _ ihl ihr =>
      have hthree := op.three_le_level
      refine ⟨fun hle => by omega, fun m rest hm hrest e' rest' hclimb => ?_⟩
      rw [List.append_assoc, List.cons_append]
      refine ihl.2 m _ hm (fun op' hlt heq => ?_) e' rest' (.more hm ?_ hclimb)
      · rw [BinOp.token_injective (Option.some.inj heq)] at hlt
        exact absurd hlt (Nat.lt_irrefl _)
      · exact ihr.2 (op.level - 1) rest (Nat.le_refl _) (fun op' hlt => hrest op' (by omega)) r rest
          (.stop fun op' hle => hrest op' (by omega))
  | up _ hle ih =>
      exact ⟨fun hm => ih.1 (by omega), fun m rest hm hrest => ih.2 m rest (by omega) fun op hlt =>
        hrest op (by omega)⟩

/-- **The grammar is unambiguous.** -/
theorem Derives.unique {n m : Nat} {ts : List Token} {e e' : Expr} (h : Derives types n ts e)
    (h' : Derives types m ts e') : e = e' := by
  have hreads : ∀ {n : Nat} {e : Expr}, Derives types n ts e → ∀ k, n ≤ k → Reads types (.level k) ts e [] := by
    intro n e h k hk
    have hstop : ∀ (op : BinOp), ([] : List Token).head? ≠ some op.token := fun _ => nofun
    have hread := h.reads.2 k [] hk (fun op _ => hstop op) e [] (.stop fun op _ => hstop op)
    rwa [List.append_nil] at hread
  exact ((hreads h (max n m) (Nat.le_max_left n m)).unique (hreads h' (max n m) (Nat.le_max_right n m))).1

/-! ### What the tokens say about the tree -/

namespace Expr

/-- The variables. -/
def vars : Expr → List (List UInt8)
  | .var x => [x]
  | .const _ _ => []
  | .unary _ e => e.vars
  | .binary _ l r => l.vars ++ r.vars
  | .cast _ e => e.vars

/-- How often an operator is spelled in a way. -/
def spelled (w : List UInt8) : Expr → Nat
  | .var _ => 0
  | .const _ _ => 0
  | .unary op e => e.spelled w + if op.text = w then 1 else 0
  | .binary op l r => l.spelled w + r.spelled w + if op.text = w then 1 else 0
  | .cast _ e => e.spelled w

end Expr

/-- A variable is a word of the text, and neither a keyword nor a type. -/
theorem Derives.vars {n : Nat} {ts : List Token} {e : Expr} (h : Derives types n ts e) {x : List UInt8}
    (hx : x ∈ e.vars) : .ident x ∈ ts ∧ x ∉ keywords ∧ x ∉ types := by
  induction h with
  | var hkeyword htype =>
      rw [List.mem_singleton.mp hx]
      exact ⟨List.mem_singleton_self _, hkeyword, htype⟩
  | const _ n => cases hx
  | paren _ ih =>
      obtain ⟨hmem, hname⟩ := ih hx
      exact ⟨List.mem_cons_of_mem _ (List.mem_append_left _ hmem), hname⟩
  | unary op _ ih =>
      obtain ⟨hmem, hname⟩ := ih hx
      exact ⟨List.mem_cons_of_mem _ hmem, hname⟩
  | cast _ _ ih =>
      obtain ⟨hmem, hname⟩ := ih hx
      exact ⟨List.mem_cons_of_mem _ (List.mem_append_right _ (List.mem_cons_of_mem _ hmem)), hname⟩
  | binary op _ _ ihl ihr =>
      rcases List.mem_append.mp hx with hx | hx
      · obtain ⟨hmem, hname⟩ := ihl hx
        exact ⟨List.mem_append_left _ hmem, hname⟩
      · obtain ⟨hmem, hname⟩ := ihr hx
        exact ⟨List.mem_append_right _ (List.mem_cons_of_mem _ hmem), hname⟩
  | up _ _ ih => exact ih hx

theorem count_punct (w v : List UInt8) (ts : List Token) :
    (Token.punct v :: ts).count (.punct w) = ts.count (.punct w) + if v = w then 1 else 0 := by
  rw [List.count_cons]
  simp

/-- Every punctuator other than a parenthesis or a star is an operator of the tree. -/
theorem Derives.count_punct {n : Nat} {ts : List Token} {e : Expr} (h : Derives types n ts e) {w : List UInt8}
    (hl : ascii "(" ≠ w) (hr : ascii ")" ≠ w) (hstar : ascii "*" ≠ w) : ts.count (.punct w) = e.spelled w := by
  induction h with
  | var _ _ => rfl
  | const _ n => rfl
  | @paren ts e _ ih =>
      rw [lparen, CLang.count_punct, List.count_append, rparen, CLang.count_punct, if_neg hl, if_neg hr, List.count_nil, ih]
      rfl
  | unary op _ ih => rw [UnOp.token, CLang.count_punct, ih, Expr.spelled]
  | @cast T ts e _ _ ih =>
      have htokens : T.tokens.count (.punct w) = 0 := by
        unfold TypeName.tokens
        cases T.pointer <;> simp [hstar]
      rw [lparen, CLang.count_punct, List.count_append, rparen, CLang.count_punct, if_neg hl, if_neg hr, htokens, ih,
        Expr.spelled]
      omega
  | binary op _ _ ihl ihr =>
      rw [List.count_append, BinOp.token, CLang.count_punct, ihl, ihr, Expr.spelled, Nat.add_assoc]
  | up _ _ ih => exact ih

/-! ### Types -/

/-- The types of expressions: integers with a sign or without one and with a width, pointers by the name of what they
point to, `float` and `double`, and `void`. -/
inductive CType where
  | int (signed : Bool) (bits : Nat)
  | pointer (base : List UInt8)
  | floating
  | void
  deriving DecidableEq, Repr

/-- The signedness and the width of an integer type. -/
def intType (base : List UInt8) : Option (Bool × Nat) :=
  if base = ascii "int8_t" then some (true, 8)
  else if base = ascii "int16_t" then some (true, 16)
  else if base = ascii "int32_t" then some (true, 32)
  else if base = ascii "int64_t" then some (true, 64)
  else if base = ascii "uint8_t" then some (false, 8)
  else if base = ascii "uint16_t" then some (false, 16)
  else if base = ascii "uint32_t" then some (false, 32)
  else if base = ascii "uint64_t" then some (false, 64)
  else none

def TypeName.type (T : TypeName) : CType :=
  if T.pointer then .pointer T.base
  else if T.base = ascii "void" then .void
  else match intType T.base with
    | some t => .int t.1 t.2
    | none => .floating

/-- The first type that has the value: `int` and `long` for decimal constants, and for the others the unsigned ones
between them. -/
def literalType (decimal : Bool) (n : Nat) : Option CType :=
  if n < 2 ^ 31 then some (.int true 32)
  else if !decimal ∧ n < 2 ^ 32 then some (.int false 32)
  else if n < 2 ^ 63 then some (.int true 64)
  else if !decimal ∧ n < 2 ^ 64 then some (.int false 64)
  else none

/-- The integer promotions. -/
def promote (signed : Bool) (bits : Nat) : Bool × Nat := if bits < 32 then (true, 32) else (signed, bits)

/-- The usual arithmetic conversions. -/
def common (t u : Bool × Nat) : Bool × Nat :=
  if t.2 = u.2 then (t.1 && u.1, t.2) else if t.2 < u.2 then u else t

def UnOp.type : UnOp → CType → Option CType
  | .minus, .int s b | .plus, .int s b | .complement, .int s b => some (.int (promote s b).1 (promote s b).2)
  | .minus, .floating | .plus, .floating => some .floating
  | .not, .int _ _ | .not, .pointer _ | .not, .floating => some (.int true 32)
  | .deref, .pointer base => (intType base).map fun t => .int t.1 t.2
  | _, _ => none

/-- The operators whose result is an `int`. -/
def BinOp.isTest : BinOp → Bool
  | .lt | .le | .gt | .ge | .eq | .ne | .logicalAnd | .logicalOr => true
  | _ => false

def BinOp.isShift : BinOp → Bool
  | .shl | .shr => true
  | _ => false

/-- The type of the result of an operator with two operands of these types, if they can be its operands. -/
def BinOp.type (op : BinOp) : CType → CType → Option CType
  | .int s b, .int s' b' =>
    let t := if op.isTest then (true, 32) else if op.isShift then promote s b else common (promote s b) (promote s' b')
    some (.int t.1 t.2)
  | .pointer p, .int _ _ => if op.isTest then some (.int true 32) else if op ∈ [.add, .sub] then some (.pointer p) else none
  | .int _ _, .pointer p => if op.isTest then some (.int true 32) else if op = .add then some (.pointer p) else none
  | .pointer _, .pointer _ => if op.isTest then some (.int true 32) else if op = .sub then some (.int true 64) else none
  | _, _ => none

/-- The type of an expression. A dereferenced pointer has an address again. -/
def typeOf : Expr → Option CType
  | .var _ => some (.int true 64)
  | .const decimal n => literalType decimal n
  | .unary .address (.var _) => some (.pointer (ascii "int64_t"))
  | .unary .address (.unary .deref a) => typeOf a
  | .unary op e => (typeOf e).bind op.type
  | .binary op l r => (typeOf l).bind fun t => (typeOf r).bind fun u => op.type t u
  | .cast T e => (typeOf e).map fun _ => T.type

/-! ### Values -/

/-- What an expression reads: variables, their addresses, and memory. -/
structure Env where
  var : List UInt8 → BitVec 64
  place : List UInt8 → BitVec 64
  memory : BitVec 64 → BitVec 8

/-- The low bits of a number, as a number of the type that has them. Numbers of each type are held in 64 bits. -/
def extend (signed : Bool) (bits : Nat) (x : BitVec 64) : BitVec 64 :=
  if signed then (x.setWidth bits).signExtend 64 else (x.setWidth bits).setWidth 64

namespace Env

/-- The bytes at an address, the first of them lowest. -/
def word (env : Env) (a : BitVec 64) : Nat → BitVec 64
  | 0 => 0
  | n + 1 => (env.memory a).setWidth 64 ||| env.word (a + 1) n <<< 8

/-- The integer of a width at an address. -/
def loadInt (env : Env) (signed : Bool) (bits : Nat) (a : BitVec 64) : BitVec 64 :=
  extend signed bits (env.word a (bits / 8))

/-- What a pointer to a type points to. -/
def load (env : Env) (base : List UInt8) (a : BitVec 64) : Option (BitVec 64) :=
  (intType base).map fun t => env.loadInt t.1 t.2 a

end Env

/-- A number as one of another type. Those of the floating types have no value here. -/
def CType.convert : CType → BitVec 64 → Option (BitVec 64)
  | .int s b, x => some (extend s b x)
  | .pointer _, x => some x
  | _, _ => none

def ofBool (b : Bool) : BitVec 64 := if b then 1 else 0

/-- A sign or a complement, in the promoted type. -/
def UnOp.apply : UnOp → CType → BitVec 64 → Option (BitVec 64)
  | .minus, .int s b, x => some (extend (promote s b).1 (promote s b).2 (-x))
  | .plus, .int s b, x => some (extend (promote s b).1 (promote s b).2 x)
  | .complement, .int s b, x => some (extend (promote s b).1 (promote s b).2 (~~~x))
  | .not, .int _ _, x | .not, .pointer _, x => some (ofBool (x = 0))
  | _, _, _ => none

/-- An operator on integers of one type. Divisions by zero have no value. -/
def BinOp.applyInt (op : BinOp) (signed : Bool) (bits : Nat) (x y : BitVec 64) : Option (BitVec 64) :=
  match op with
  | .mul => some (extend signed bits (x * y))
  | .div => if y = 0 then none else some (extend signed bits (if signed then x.sdiv y else x / y))
  | .mod => if y = 0 then none else some (extend signed bits (if signed then x.srem y else x % y))
  | .add => some (extend signed bits (x + y))
  | .sub => some (extend signed bits (x - y))
  | .lt => some (ofBool (if signed then x.slt y else x.ult y))
  | .le => some (ofBool (if signed then x.sle y else x.ule y))
  | .gt => some (ofBool (if signed then y.slt x else y.ult x))
  | .ge => some (ofBool (if signed then y.sle x else y.ule x))
  | .eq => some (ofBool (x = y))
  | .ne => some (ofBool (x ≠ y))
  | .and => some (extend signed bits (x &&& y))
  | .xor => some (extend signed bits (x ^^^ y))
  | .or => some (extend signed bits (x ||| y))
  | _ => none

/-- A shift in the type of the number that is shifted. By a negative number or by the width it has no value. -/
def BinOp.applyShift (op : BinOp) (signed : Bool) (bits : Nat) (x y : BitVec 64) : Option (BitVec 64) :=
  if y.toNat < bits then
    match op with
    | .shl => some (extend signed bits (x <<< y.toNat))
    | .shr => some (if signed then x.sshiftRight y.toNat else x >>> y.toNat)
    | _ => none
  else none

/-- The size of what a pointer points to. -/
def sizeOf (base : List UInt8) : Option (BitVec 64) := (intType base).map fun t => BitVec.ofNat 64 (t.2 / 8)

/-- An operator on operands of these types. `null` and `null'` tell that an operand is a null pointer constant; other
numbers are not compared with pointers, and pointers only with those of their type or, if not by their order, to
`void`. -/
def BinOp.apply (op : BinOp) : CType → CType → Bool → Bool → BitVec 64 → BitVec 64 → Option (BitVec 64)
  | .int s b, .int s' b', _, _, x, y =>
    if op.isShift then op.applyShift (promote s b).1 (promote s b).2 x y
    else
      let t := common (promote s b) (promote s' b')
      op.applyInt t.1 t.2 (extend t.1 t.2 x) (extend t.1 t.2 y)
  | .pointer p, .int _ _, _, null', x, y =>
    match op with
    | .add => (sizeOf p).map fun n => x + n * y
    | .sub => (sizeOf p).map fun n => x - n * y
    | .eq => if null' then some (ofBool (x = y)) else none
    | .ne => if null' then some (ofBool (x ≠ y)) else none
    | _ => none
  | .int _ _, .pointer p, null, _, x, y =>
    match op with
    | .add => (sizeOf p).map fun n => n * x + y
    | .eq => if null then some (ofBool (x = y)) else none
    | .ne => if null then some (ofBool (x ≠ y)) else none
    | _ => none
  | .pointer p, .pointer q, _, _, x, y =>
    match op with
    | .sub => if p = q then (sizeOf p).map fun n => (x - y).sdiv n else none
    | .lt | .le | .gt | .ge => if p = q then op.applyInt false 64 x y else none
    | .eq | .ne => if p = q ∨ p = ascii "void" ∨ q = ascii "void" then op.applyInt false 64 x y else none
    | _ => none
  | _, _, _, _, _, _ => none

/-- An integer constant expression. -/
def Expr.isConstant : Expr → Bool
  | .var _ => false
  | .const _ _ => true
  | .unary op e => op ∈ [.minus, .plus, .complement, .not] && e.isConstant
  | .binary _ l r => l.isConstant && r.isConstant
  | .cast T e => !T.pointer && (intType T.base).isSome && e.isConstant

/-- The value, with its sign or without one as its type has it. Addresses are those of variables and of what a pointer
points to, and an expression that assigns has no value here. -/
def eval (env : Env) : Expr → Option (BitVec 64)
  | .var x => some (env.var x)
  | .const decimal n => (literalType decimal n).map fun _ => BitVec.ofNat 64 n
  | .unary .address (.var x) => some (env.place x)
  | .unary .address (.unary .deref a) =>
    match typeOf a with
    | some (.pointer _) => eval env a
    | _ => none
  | .unary .deref a =>
    match typeOf a with
    | some (.pointer base) => (eval env a).bind (env.load base)
    | _ => none
  | .unary op e => (typeOf e).bind fun t => (eval env e).bind (op.apply t)
  | .binary .logicalAnd l r =>
    (eval env l).bind fun x => if x = 0 then some 0 else (eval env r).map fun y => ofBool (y ≠ 0)
  | .binary .logicalOr l r =>
    (eval env l).bind fun x => if x = 0 then (eval env r).map fun y => ofBool (y ≠ 0) else some 1
  | .binary op l r =>
    (typeOf l).bind fun t => (typeOf r).bind fun u => (eval env l).bind fun x => (eval env r).bind fun y =>
      op.apply t u (l.isConstant && x = 0) (r.isConstant && y = 0) x y
  | .cast T e => (eval env e).bind T.type.convert

end CLang
