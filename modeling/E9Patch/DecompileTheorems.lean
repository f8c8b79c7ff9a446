import E9Patch.DecompileOperators
import E9Patch.DecompileTokens

/-!
When a decompiled expression means what the tree it was written for means: the text is read as the same tree, with the
same operators, and has the value of the tree. No operand is cast, so an operator does what C makes of the types of its
operands: shifts and comparisons go by their signs, and numbers of 32 bits are not widened. A remainder is not written
as one, nor are two signs or two ampersands in front of one operand.
-/

namespace E9Patch
open Numerals

/-! ### Trees -/

def constTree (constant : BitVec 64) : CLang.Expr :=
  if constant.toInt < 0 then .unary .minus (.const true (-constant.toInt).toNat)
  else .const (constant.toInt ≤ 0xFFFF) constant.toNat

/-- The tree that the text is meant to be read as. -/
def cTree : E9IRValue → CLang.Expr
  | .null => .const true 0
  | .CONST constant => constTree constant
  | .binary op left right => .binary (cOp op) (cTree left) (cTree right)
  | .NEG operand => .unary .minus (cTree operand)
  | .NOT operand => .unary .complement (cTree operand)
  | .LOAD addr size => .unary .deref (.cast ⟨loadType size, true⟩ (cTree addr))
  | .ADDRESS operand => .unary .address (cTree operand)
  | .CAST type operand => .cast (castType type) (cTree operand)
  | v => .var ((varName v).getD [])

/-- An expression is the tree with the same operators. A number in memory is read through a pointer of a cast, and there
are no negative constants. -/
def SameTree (e : CLang.Expr) : E9IRValue → Prop
  | .null => e = .const true 0
  | .CONST constant => ∃ d n, e = .const d n ∧ BitVec.ofNat 64 n = constant ∨
      e = .unary .minus (.const d n) ∧ -BitVec.ofNat 64 n = constant
  | .binary op left right => ∃ l r, e = .binary (cOp op) l r ∧ SameTree l left ∧ SameTree r right
  | .NEG operand => ∃ a, e = .unary .minus a ∧ SameTree a operand
  | .NOT operand => ∃ a, e = .unary .complement a ∧ SameTree a operand
  | .LOAD addr size => ∃ a, e = .unary .deref (.cast ⟨loadType size, true⟩ a) ∧ SameTree a addr
  | .ADDRESS operand => ∃ a, e = .unary .address a ∧ SameTree a operand
  | .CAST type operand => ∃ a, e = .cast (castType type) a ∧ SameTree a operand
  | v => ∃ x, varName v = some x ∧ e = .var x

/-- The level of the operands of an operator that has a precedence. -/
def operandLevel (precedence : Int) : Nat := max 2 (min CLang.topLevel (precedence - 1).toNat)

/-- The text that is written to any buffer means what the tree means: it is an expression, and one that can stand where
operators of the precedence have an operand, and has the value of the tree, if this has one. -/
def EmitsRight (v : E9IRValue) (precedence : Int) : Prop :=
  ∀ dc, ∃ dc' text ts e, emit_value dc v precedence = some dc' ∧ dc'.output = dc.output ++ text ∧
    CLang.Lexes text ts ∧ CLang.Derives typeNames (operandLevel precedence) ts e ∧
    (∀ n e', CLang.Derives typeNames n ts e' → e' = e) ∧ SameTree e v ∧
    ∀ env x, irValue env v = some x → CLang.eval env e = some x

/-- The tree and the trees of its operands. -/
def subtrees : E9IRValue → List E9IRValue
  | .binary op left right => .binary op left right :: (subtrees left ++ subtrees right)
  | .NEG operand => .NEG operand :: subtrees operand
  | .NOT operand => .NOT operand :: subtrees operand
  | .LOAD addr size => .LOAD addr size :: subtrees addr
  | .ADDRESS operand => .ADDRESS operand :: subtrees operand
  | .CAST type operand => .CAST type operand :: subtrees operand
  | v => [v]

/-- The type that C gives an operand. -/
def cType (v : E9IRValue) : Option CLang.CType := CLang.typeOf (cTree v)

/-- In the types that C gives its operands an operator suits them, whatever values they have, and the number of a constant
has a type. -/
def Computes : E9IRValue → Prop
  | .CONST constant => constant ≠ BitVec.intMin 64
  | .binary op left right => ∀ env x y z, irValue env left = some x → irValue env right = some y →
      op.apply x y = some z → ∃ t u, cType left = some t ∧ cType right = some u ∧
        Suits op t u ((cTree left).isConstant && x = 0) ((cTree right).isConstant && y = 0) x y
  | .NEG operand => ∀ env x, irValue env operand = some x → ∃ t, cType operand = some t ∧ SuitsSign t (-x)
  | .NOT operand => ∀ env x, irValue env operand = some x → ∃ t, cType operand = some t ∧ SuitsSign t (~~~x)
  | _ => True

/-! ### Operators -/

/-- Apart from the remainder the text of an operation is that of the operator. -/
theorem opTokens_eq {op : E9IROp} (h : op ≠ .MOD) : opTokens op = [(cOp op).token] := by
  cases op <;> first | rfl | exact absurd rfl h

theorem level_cOp (op : E9IROp) : (cOp op).level = op_precedence op := by
  cases op <;> rfl

/-! ### Values -/

section
variable {v : E9IRValue} {x : List UInt8} (h : varName v = some x)
include h

theorem cTree_var : cTree v = .var x := by
  cases v <;> cases h <;> rfl

theorem sameTree_var {e : CLang.Expr} : SameTree e v ↔ e = .var x := by
  cases v <;> cases h <;> simp [SameTree, varName]

theorem irValue_var (env : CLang.Env) : irValue env v = some (env.var x) := by
  cases v <;> cases h <;> rfl

theorem irValue_address_var (env : CLang.Env) : irValue env (.ADDRESS v) = some (env.place x) := by
  cases v <;> cases h <;> rfl

theorem cType_var : cType v = some (.int true 64) := by
  rw [cType, cTree_var h]
  rfl

theorem binaryOps_var : binaryOps v = [] := by
  cases v <;> cases h <;> rfl

end

/-- No operation is a logical connective. -/
theorem eval_binary (env : CLang.Env) (op : E9IROp) (l r : CLang.Expr) :
    CLang.eval env (.binary (cOp op) l r) =
      (CLang.typeOf l).bind fun t => (CLang.typeOf r).bind fun u => (CLang.eval env l).bind fun x =>
        (CLang.eval env r).bind fun y => (cOp op).apply t u (l.isConstant && x = 0) (r.isConstant && y = 0) x y := by
  cases op <;> rfl

theorem eval_minus (env : CLang.Env) (e : CLang.Expr) : CLang.eval env (.unary .minus e) =
    (CLang.typeOf e).bind fun t => (CLang.eval env e).bind (CLang.UnOp.minus.apply t) := rfl

theorem eval_complement (env : CLang.Env) (e : CLang.Expr) : CLang.eval env (.unary .complement e) =
    (CLang.typeOf e).bind fun t => (CLang.eval env e).bind (CLang.UnOp.complement.apply t) := rfl

theorem literalType_some {d : Bool} {n : Nat} (h : n < 2 ^ 63) : ∃ s b, CLang.literalType d n = some (.int s b) := by
  unfold CLang.literalType
  split_ifs <;> exact ⟨_, _, rfl⟩

theorem neg_ofNat {constant : BitVec 64} (hneg : constant.toInt < 0) :
    -BitVec.ofNat 64 (-constant.toInt).toNat = constant := by
  rw [← BitVec.ofInt_natCast, ← BitVec.ofInt_neg, Int.toNat_of_nonneg (by omega), Int.neg_neg, BitVec.ofInt_toInt]

/-- A constant has its number, but for the least one, whose digits have no type. -/
theorem eval_constTree (env : CLang.Env) (constant : BitVec 64) :
    CLang.eval env (constTree constant) = some constant ↔ constant ≠ BitVec.intMin 64 := by
  have hmin : constant = BitVec.intMin 64 ↔ constant.toInt = -2 ^ 63 := by
    rw [← BitVec.toInt_inj]
    rfl
  have hlow := BitVec.le_toInt constant
  unfold constTree
  split_ifs with hneg
  · generalize hm : (-constant.toInt).toNat = m
    have hvalue : -BitVec.ofNat 64 m = constant := hm ▸ neg_ofNat hneg
    rw [Ne, hmin, eval_minus, CLang.typeOf, CLang.eval]
    rcases Nat.lt_or_ge m (2 ^ 31) with hint | hint
    · rw [CLang.literalType, if_pos hint]
      refine iff_of_true (congrArg some ?_) (by omega)
      rw [hvalue]
      exact CLang.extend_int (by omega) (by omega)
    · have htype : CLang.literalType true m = if m < 2 ^ 63 then some (.int true 64) else none := by
        rw [CLang.literalType, if_neg (by omega), if_neg (by simp)]
        simp
      rw [htype]
      split_ifs with hlong
      · refine iff_of_true (congrArg some ?_) (by omega)
        rw [hvalue]
        exact CLang.extend_long true constant
      · refine iff_of_false (fun h => ?_) (by omega)
        cases h
  · have hnat : constant.toNat < 2 ^ 63 := by
      have := BitVec.toInt_eq_toNat_cond constant
      omega
    obtain ⟨_, _, ht⟩ := @literalType_some (constant.toInt ≤ 0xFFFF) _ hnat
    refine iff_of_true ?_ (by rw [Ne, hmin]; omega)
    rw [CLang.eval, ht, Option.map_some, BitVec.ofNat_toNat, BitVec.setWidth_eq]

/-! ### What is written right -/

theorem loadType_load (env : CLang.Env) (size : BitVec 32) (x : BitVec 64) :
    env.load (loadType size) x = some (loadValue env size x) := by
  unfold loadType loadValue
  split_ifs <;> rfl

theorem castType_convert (type : Option E9DataType) (x : BitVec 64) :
    (castType type).type.convert x = castValue type x := by
  rcases type with _ | type
  · exact congrArg some (CLang.extend_long true x)
  · cases type <;> first | rfl | exact congrArg some (CLang.extend_long _ x)

theorem constTree_same (constant : BitVec 64) : SameTree (constTree constant) (.CONST constant) := by
  unfold constTree
  split_ifs with hneg
  · exact ⟨_, _, Or.inr ⟨rfl, neg_ofNat hneg⟩⟩
  · exact ⟨_, _, Or.inl ⟨rfl, BitVec.ofNat_toNat 64 constant⟩⟩

/-- The tree of the text is the same tree. -/
theorem sameTree_cTree (v : E9IRValue) : SameTree (cTree v) v := by
  induction v with
  | null => rfl
  | CONST constant => exact constTree_same constant
  | REG reg => exact ⟨_, rfl, rfl⟩
  | LOCAL index name => exact ⟨_, rfl, rfl⟩
  | GLOBAL index name => exact ⟨_, rfl, rfl⟩
  | PARAM index name => exact ⟨_, rfl, rfl⟩
  | TEMP index => exact ⟨_, rfl, rfl⟩
  | binary op left right ihl ihr => exact ⟨_, _, rfl, ihl, ihr⟩
  | NEG operand ih => exact ⟨_, rfl, ih⟩
  | NOT operand ih => exact ⟨_, rfl, ih⟩
  | LOAD addr size ih => exact ⟨_, rfl, ih⟩
  | ADDRESS operand ih => exact ⟨_, rfl, ih⟩
  | CAST type operand ih => exact ⟨_, rfl, ih⟩

/-- Two signs or two ampersands never stand in front of one operand. -/
def SignsApart : E9IRValue → Prop
  | .NEG (.NEG _) => False
  | .ADDRESS (.ADDRESS _) => False
  | .binary _ left right => SignsApart left ∧ SignsApart right
  | .NEG operand | .NOT operand | .LOAD operand _ | .ADDRESS operand | .CAST _ operand => SignsApart operand
  | _ => True

theorem apart_neg {operand : E9IRValue} :
    SignsApart (.NEG operand) ↔ (∀ w, operand ≠ .NEG w) ∧ SignsApart operand := by
  cases operand <;> simp [SignsApart]

theorem apart_address {operand : E9IRValue} :
    SignsApart (.ADDRESS operand) ↔ (∀ w, operand ≠ .ADDRESS w) ∧ SignsApart operand := by
  cases operand <;> simp [SignsApart]

/-- A tree whose text is read as it. -/
structure Spelled (v : E9IRValue) : Prop where
  names : ∀ x ∈ names v, IsName x
  ops : ∀ op ∈ binaryOps v, op ≠ .MOD
  apart : SignsApart v

/-- A tree whose text is read as it, and in which the operators suit their operands. -/
structure Printable (v : E9IRValue) : Prop where
  spelled : Spelled v
  computes : ∀ w ∈ subtrees v, Computes w

theorem loadType_mem (size : BitVec 32) : loadType size ∈ typeNames := by
  unfold loadType
  split_ifs <;> decide

theorem castType_mem (type : Option E9DataType) : (castType type).base ∈ typeNames := by
  rcases type with _ | type
  · decide
  · cases type <;> decide

/-- The tokens are those of the tree: parentheses stand where an operator does not bind tighter than the one above. -/
theorem derives_cTree {v : E9IRValue} (hnames : ∀ x ∈ names v, IsName x) (hops : ∀ op ∈ binaryOps v, op ≠ .MOD)
    (hapart : SignsApart v) {n : Nat} {precedence : Int} (hn : 2 ≤ n) (hlevel : precedence ≤ n + 1 ∨ 10 ≤ n) :
    CLang.Derives typeNames n (exprTokens v precedence) (cTree v) := by
  have hvar : ∀ {v : E9IRValue} {x : List UInt8}, varName v = some x → (∀ x ∈ names v, IsName x) →
      ∀ {n : Nat} {precedence : Int}, 2 ≤ n → CLang.Derives typeNames n (exprTokens v precedence) (cTree v) := by
    intro v x hx hnames n precedence hn
    rw [names_var hx] at hnames
    rw [exprTokens_var hx, cTree_var hx]
    have hfree := (hnames x (List.mem_singleton_self x)).free
    exact .up (.var hfree.1 hfree.2) (by omega)
  have hunary : ∀ (op : CLang.UnOp) {ts : List CLang.Token} {e : CLang.Expr}, CLang.Derives typeNames 2 ts e →
      ∀ {n : Nat}, 2 ≤ n → CLang.Derives typeNames n (op.token :: ts) (.unary op e) :=
    fun op _ _ h _ hn => .up (.unary op h) hn
  have htwo : (2 : Int) ≤ (2 : Nat) + 1 ∨ 10 ≤ 2 := Or.inl (by decide)
  induction v generalizing n precedence with
  | null => exact .up (.const true 0) (by omega)
  | CONST constant =>
      rw [exprTokens, cTree, constTokens, constTree]
      split_ifs
      · exact .up (.paren (.up (.unary .minus (.up (.const _ _) (by decide))) (by decide))) (by omega)
      · exact .up (.const _ _) (by omega)
  | REG reg => exact hvar rfl hnames hn
  | LOCAL index name => exact hvar rfl hnames hn
  | GLOBAL index name => exact hvar rfl hnames hn
  | PARAM index name => exact hvar rfl hnames hn
  | TEMP index => exact hvar rfl hnames hn
  | binary op left right ihl ihr =>
      have hprec : 3 ≤ op_precedence op ∧ op_precedence op ≤ 10 := by cases op <;> decide
      have hleft : CLang.Derives typeNames (op_precedence op) (exprTokens left (op_precedence op)) (cTree left) :=
        ihl (fun x hx => hnames x (List.mem_append_left _ hx))
          (fun o ho => hops o (List.mem_cons_of_mem _ (List.mem_append_left _ ho))) hapart.1 (by omega)
          (Or.inl (by omega))
      -- the right operand of an operator does not have one of the same level, as it is written with the same precedence
      have hright : CLang.Derives typeNames (op_precedence op - 1) (exprTokens right (op_precedence op))
          (cTree right) :=
        ihr (fun x hx => hnames x (List.mem_append_right _ hx))
          (fun o ho => hops o (List.mem_cons_of_mem _ (List.mem_append_right _ ho))) hapart.2 (by omega)
          (Or.inl (by omega))
      have hbody : CLang.Derives typeNames (op_precedence op)
          (exprTokens left (op_precedence op) ++ (opTokens op ++ exprTokens right (op_precedence op)))
          (cTree (.binary op left right)) := by
        rw [opTokens_eq (hops op List.mem_cons_self)]
        rw [← level_cOp] at hleft hright ⊢
        exact .binary (cOp op) hleft hright
      rw [exprTokens]
      split_ifs with hparens
      · exact .up (.paren (.up hbody (by unfold CLang.topLevel; omega))) (by omega)
      · exact .up hbody (by omega)
  | NEG operand ih =>
      obtain ⟨hneg, hoperand⟩ := apart_neg.mp hapart
      rw [exprTokens_neg hneg]
      exact hunary .minus (ih hnames hops hoperand (Nat.le_refl 2) htwo) hn
  | NOT operand ih => exact hunary .complement (ih hnames hops hapart (Nat.le_refl 2) htwo) hn
  | LOAD addr size ih =>
      have haddr := ih hnames hops hapart (Nat.le_refl 2) htwo
      exact hunary .deref (@CLang.Derives.cast _ ⟨loadType size, true⟩ _ _ (loadType_mem size) haddr) hn
  | ADDRESS operand ih =>
      obtain ⟨haddress, hoperand⟩ := apart_address.mp hapart
      rw [exprTokens_address haddress]
      exact hunary .address (ih hnames hops hoperand (Nat.le_refl 2) htwo) hn
  | CAST type operand ih =>
      exact .up (.cast (castType_mem type) (ih hnames hops hapart (Nat.le_refl 2) htwo)) hn

/-! ### Values of the text -/

/-- What an operator can be applied to has a type. -/
theorem type_of_apply {o : CLang.BinOp} {t u : CLang.CType} {n n' : Bool} {x y z : BitVec 64}
    (h : o.apply t u n n' x y = some z) : ∃ T, o.type t u = some T := by
  cases t <;> cases u <;> first
    | exact ⟨_, rfl⟩
    | cases h
    | (cases o <;> first | exact ⟨_, rfl⟩ | cases h)

theorem unType_of_apply {o : CLang.UnOp} {t : CLang.CType} {x z : BitVec 64} (h : o.apply t x = some z) :
    ∃ T, o.type t = some T := by
  cases o <;> cases t <;> first | exact ⟨_, rfl⟩ | cases h

theorem typeOf_minus (e : CLang.Expr) :
    CLang.typeOf (.unary .minus e) = (CLang.typeOf e).bind CLang.UnOp.minus.type := rfl

theorem typeOf_complement (e : CLang.Expr) :
    CLang.typeOf (.unary .complement e) = (CLang.typeOf e).bind CLang.UnOp.complement.type := rfl

theorem typeOf_constTree {constant : BitVec 64} (h : constant ≠ BitVec.intMin 64) :
    ∃ t, CLang.typeOf (constTree constant) = some t := by
  have hmin : constant.toInt ≠ -2 ^ 63 := fun heq => h (BitVec.toInt_inj.mp heq)
  have hlow := BitVec.le_toInt constant
  have hint := BitVec.toInt_eq_toNat_cond constant
  unfold constTree
  split_ifs with hneg
  · obtain ⟨s, b, ht⟩ := @literalType_some true (-constant.toInt).toNat (by omega)
    rw [typeOf_minus, CLang.typeOf, ht]
    exact ⟨_, rfl⟩
  · obtain ⟨s, b, ht⟩ := @literalType_some (constant.toInt ≤ 0xFFFF) constant.toNat (by omega)
    exact ⟨_, ht⟩

section
variable {env : CLang.Env} {a : CLang.Expr} {x : BitVec 64} {t : CLang.CType} (hx : CLang.eval env a = some x)
  (ht : CLang.typeOf a = some t) (size : BitVec 32)
include hx ht

/-- The pointer of a load. -/
theorem eval_pointer : CLang.eval env (.cast ⟨loadType size, true⟩ a) = some x ∧
    CLang.typeOf (.cast ⟨loadType size, true⟩ a) = some (.pointer (loadType size)) := by
  rw [CLang.eval, CLang.typeOf, hx, ht]
  exact ⟨rfl, rfl⟩

theorem eval_load : CLang.eval env (.unary .deref (.cast ⟨loadType size, true⟩ a)) = some (loadValue env size x) ∧
    ∃ T, CLang.typeOf (.unary .deref (.cast ⟨loadType size, true⟩ a)) = some T := by
  obtain ⟨heval, htype⟩ := eval_pointer hx ht size
  refine ⟨?_, ?_⟩
  · rw [CLang.eval, htype]
    dsimp only
    rw [heval]
    exact loadType_load env size x
  · show ∃ T, (CLang.typeOf (.cast ⟨loadType size, true⟩ a)).bind CLang.UnOp.deref.type = some T
    rw [htype]
    unfold loadType
    split_ifs <;> exact ⟨_, rfl⟩

theorem eval_address_load : CLang.eval env (.unary .address (.unary .deref (.cast ⟨loadType size, true⟩ a))) = some x ∧
    ∃ T, CLang.typeOf (.unary .address (.unary .deref (.cast ⟨loadType size, true⟩ a))) = some T := by
  obtain ⟨heval, htype⟩ := eval_pointer hx ht size
  rw [CLang.eval, CLang.typeOf, htype]
  exact ⟨heval, _, rfl⟩

end

/-- A value that the tree has is that of its text, which has a type. -/
def Evaluates (env : CLang.Env) (v : E9IRValue) : Prop :=
  ∀ x, irValue env v = some x → CLang.eval env (cTree v) = some x ∧ ∃ t, cType v = some t

theorem evaluates_var {env : CLang.Env} {v : E9IRValue} {y : List UInt8} (hy : varName v = some y) :
    Evaluates env v := by
  intro x hx
  rw [irValue_var hy] at hx
  rw [cTree_var hy, cType_var hy]
  exact ⟨hx, _, rfl⟩

section
variable {env : CLang.Env} {operand : E9IRValue}

theorem Computes.binary {op : E9IROp} {left right : E9IRValue} (h : Computes (.binary op left right))
    (hl : Evaluates env left) (hr : Evaluates env right) : Evaluates env (.binary op left right) := by
  intro z hz
  obtain ⟨x, hx, hz⟩ := Option.bind_eq_some_iff.mp hz
  obtain ⟨y, hy, hz⟩ := Option.bind_eq_some_iff.mp hz
  obtain ⟨t, u, ht, hu, hsuits⟩ := h env x y z hx hy hz
  have hop : op ≠ .MOD := by
    rintro rfl
    exact not_suits_mod hsuits
  have happly := (suits_iff (CLang.eval_has ht (hl x hx).1) (CLang.eval_has hu (hr y hy).1) hop hz).mpr hsuits
  rw [cType] at ht hu
  constructor
  · rw [cTree, eval_binary, ht, hu, (hl x hx).1, (hr y hy).1]
    exact happly
  · obtain ⟨T, hT⟩ := type_of_apply happly
    refine ⟨T, ?_⟩
    rw [cType, cTree, CLang.typeOf, ht, hu]
    exact hT

theorem Computes.neg (h : Computes (.NEG operand)) (ho : Evaluates env operand) : Evaluates env (.NEG operand) := by
  intro z hz
  obtain ⟨x, hx, rfl⟩ := Option.map_eq_some_iff.mp hz
  obtain ⟨t, ht, hsuits⟩ := h env x hx
  have happly := (suits_minus (CLang.eval_has ht (ho x hx).1)).mpr hsuits
  rw [cType] at ht
  constructor
  · rw [cTree, eval_minus, ht, (ho x hx).1]
    exact happly
  · rw [cType, cTree, typeOf_minus, ht]
    exact unType_of_apply happly

theorem Computes.not (h : Computes (.NOT operand)) (ho : Evaluates env operand) : Evaluates env (.NOT operand) := by
  intro z hz
  obtain ⟨x, hx, rfl⟩ := Option.map_eq_some_iff.mp hz
  obtain ⟨t, ht, hsuits⟩ := h env x hx
  have happly := (suits_complement (CLang.eval_has ht (ho x hx).1)).mpr hsuits
  rw [cType] at ht
  constructor
  · rw [cTree, eval_complement, ht, (ho x hx).1]
    exact happly
  · rw [cType, cTree, typeOf_complement, ht]
    exact unType_of_apply happly

theorem Evaluates.load (ho : Evaluates env operand) (size : BitVec 32) : Evaluates env (.LOAD operand size) := by
  intro z hz
  obtain ⟨x, hx, rfl⟩ := Option.map_eq_some_iff.mp hz
  obtain ⟨heval, t, ht⟩ := ho x hx
  exact eval_load heval ht size

theorem Evaluates.cast (ho : Evaluates env operand) (type : Option E9DataType) :
    Evaluates env (.CAST type operand) := by
  intro z hz
  obtain ⟨x, hx, hcast⟩ := Option.bind_eq_some_iff.mp hz
  obtain ⟨heval, t, ht⟩ := ho x hx
  rw [cType] at ht
  refine ⟨?_, (castType type).type, ?_⟩
  · rw [cTree, CLang.eval, heval, Option.bind_some, castType_convert]
    exact hcast
  · rw [cType, cTree, CLang.typeOf, ht]
    rfl

/-- The address of a variable, or of what is loaded from an address. -/
theorem evaluates_address (hload : ∀ w size, operand = .LOAD w size → Evaluates env w) :
    Evaluates env (.ADDRESS operand) := by
  intro z hz
  cases hy : varName operand with
  | some y =>
      rw [irValue_address_var hy] at hz
      rw [cType, cTree, cTree_var hy]
      exact ⟨hz, _, rfl⟩
  | none =>
      cases operand with
      | LOAD addr size =>
          obtain ⟨heval, t, ht⟩ := hload addr size rfl z hz
          exact eval_address_load heval ht size
      | REG _ => cases hy
      | LOCAL _ _ => cases hy
      | GLOBAL _ _ => cases hy
      | PARAM _ _ => cases hy
      | TEMP _ => cases hy
      | _ => cases hz

end

/-- If every operator suits its operands, the text has the value of the tree. -/
theorem eval_cTree {v : E9IRValue} (h : ∀ w ∈ subtrees v, Computes w) (env : CLang.Env) : Evaluates env v := by
  -- the address of a load is about the value of what is under it
  suffices hall : Evaluates env v ∧ ∀ w size, v = .LOAD w size → Evaluates env w from hall.1
  induction v with
  | null => exact ⟨fun x hx => ⟨hx, _, rfl⟩, nofun⟩
  | CONST constant =>
      have hmin : constant ≠ BitVec.intMin 64 := h (.CONST constant) List.mem_cons_self
      refine ⟨fun x hx => ?_, nofun⟩
      obtain rfl := Option.some.inj hx
      exact ⟨(eval_constTree env constant).mpr hmin, typeOf_constTree hmin⟩
  | REG reg => exact ⟨evaluates_var rfl, nofun⟩
  | LOCAL index name => exact ⟨evaluates_var rfl, nofun⟩
  | GLOBAL index name => exact ⟨evaluates_var rfl, nofun⟩
  | PARAM index name => exact ⟨evaluates_var rfl, nofun⟩
  | TEMP index => exact ⟨evaluates_var rfl, nofun⟩
  | binary op left right ihl ihr =>
      obtain ⟨hop, hrest⟩ := List.forall_mem_cons.mp h
      obtain ⟨hl, hr⟩ := List.forall_mem_append.mp hrest
      exact ⟨hop.binary (ihl hl).1 (ihr hr).1, nofun⟩
  | NEG operand ih =>
      obtain ⟨hop, hrest⟩ := List.forall_mem_cons.mp h
      exact ⟨hop.neg (ih hrest).1, nofun⟩
  | NOT operand ih =>
      obtain ⟨hop, hrest⟩ := List.forall_mem_cons.mp h
      exact ⟨hop.not (ih hrest).1, nofun⟩
  | LOAD addr size ih =>
      obtain ⟨-, hrest⟩ := List.forall_mem_cons.mp h
      refine ⟨(ih hrest).1.load size, fun w s hw => ?_⟩
      cases hw
      exact (ih hrest).1
  | ADDRESS operand ih =>
      obtain ⟨-, hrest⟩ := List.forall_mem_cons.mp h
      exact ⟨evaluates_address (ih hrest).2, nofun⟩
  | CAST type operand ih =>
      obtain ⟨-, hrest⟩ := List.forall_mem_cons.mp h
      exact ⟨(ih hrest).1.cast type, nofun⟩

/-! ### What is read wrongly -/

/-- The variables of the same tree are those of the expression. -/
theorem SameTree.names_mem {v : E9IRValue} {e : CLang.Expr} (h : SameTree e v) {x : List UInt8} (hx : x ∈ names v) :
    x ∈ e.vars := by
  have hvar : ∀ {v : E9IRValue} {y : List UInt8}, varName v = some y → ∀ {e}, SameTree e v → x ∈ names v →
      x ∈ e.vars := by
    intro v y hy e h hx
    rw [names_var hy] at hx
    rw [(sameTree_var hy).mp h]
    exact hx
  induction v generalizing e with
  | null => cases hx
  | CONST constant => cases hx
  | REG reg => exact hvar rfl h hx
  | LOCAL index name => exact hvar rfl h hx
  | GLOBAL index name => exact hvar rfl h hx
  | PARAM index name => exact hvar rfl h hx
  | TEMP index => exact hvar rfl h hx
  | binary op left right ihl ihr =>
      obtain ⟨l, r, rfl, hl, hr⟩ := h
      rcases List.mem_append.mp hx with hx | hx
      · exact List.mem_append_left _ (ihl hl hx)
      · exact List.mem_append_right _ (ihr hr hx)
  | NEG operand ih =>
      obtain ⟨a, rfl, ha⟩ := h
      show x ∈ a.vars
      exact ih ha hx
  | NOT operand ih =>
      obtain ⟨a, rfl, ha⟩ := h
      show x ∈ a.vars
      exact ih ha hx
  | LOAD addr size ih =>
      obtain ⟨a, rfl, ha⟩ := h
      show x ∈ a.vars
      exact ih ha hx
  | ADDRESS operand ih =>
      obtain ⟨a, rfl, ha⟩ := h
      show x ∈ a.vars
      exact ih ha hx
  | CAST type operand ih =>
      obtain ⟨a, rfl, ha⟩ := h
      show x ∈ a.vars
      exact ih ha hx

/-- Of the operators `%`, `--` and `&&` the same tree has the first only, and that for every remainder. -/
theorem SameTree.spelled_eq {v : E9IRValue} {e : CLang.Expr} (h : SameTree e v) {w : List UInt8}
    (hw : w ∈ [ascii "%", ascii "--", ascii "&&"]) :
    e.spelled w = if w = ascii "%" then (binaryOps v).count .MOD else 0 := by
  have hunary : ∀ op : CLang.UnOp, op ∈ [.minus, .complement, .address, .deref] → op.text ≠ w := by
    have hall : ∀ w ∈ [ascii "%", ascii "--", ascii "&&"], ∀ op ∈ [.minus, .complement, .address, .deref],
        CLang.UnOp.text op ≠ w := by decide
    exact fun op hop => hall w hw op hop
  have hbinary : ∀ op, ((cOp op).text = w ↔ op = .MOD ∧ w = ascii "%") := by
    have hall : ∀ op : E9IROp, ∀ w ∈ [ascii "%", ascii "--", ascii "&&"],
        ((cOp op).text = w ↔ op = .MOD ∧ w = ascii "%") := by
      intro op
      cases op <;> decide
    exact fun op => hall op w hw
  have hzero : (0 : Nat) = if w = ascii "%" then 0 else 0 := (ite_self 0).symm
  induction v generalizing e with
  | null =>
      rw [show e = .const true 0 from h]
      exact hzero
  | CONST constant =>
      obtain ⟨d, n, ⟨rfl, -⟩ | ⟨rfl, -⟩⟩ := h
      · exact hzero
      · rw [CLang.Expr.spelled, if_neg (hunary _ (by decide))]
        exact hzero
  | REG reg =>
      obtain ⟨x, -, rfl⟩ := h
      exact hzero
  | LOCAL index name =>
      obtain ⟨x, -, rfl⟩ := h
      exact hzero
  | GLOBAL index name =>
      obtain ⟨x, -, rfl⟩ := h
      exact hzero
  | PARAM index name =>
      obtain ⟨x, -, rfl⟩ := h
      exact hzero
  | TEMP index =>
      obtain ⟨x, -, rfl⟩ := h
      exact hzero
  | binary op left right ihl ihr =>
      obtain ⟨l, r, rfl, hl, hr⟩ := h
      rw [CLang.Expr.spelled, ihl hl, ihr hr, binaryOps, List.count_cons, List.count_append]
      by_cases hpercent : w = ascii "%"
      · by_cases hmod : op = .MOD
        · rw [if_pos ((hbinary op).mpr ⟨hmod, hpercent⟩)]
          simp [hpercent, hmod]
        · rw [if_neg fun heq => hmod ((hbinary op).mp heq).1]
          simp [hpercent, hmod]
      · rw [if_neg fun heq => hpercent ((hbinary op).mp heq).2]
        simp [hpercent]
  | NEG operand ih =>
      obtain ⟨a, rfl, ha⟩ := h
      rw [CLang.Expr.spelled, if_neg (hunary _ (by decide)), ih ha]
      rfl
  | NOT operand ih =>
      obtain ⟨a, rfl, ha⟩ := h
      rw [CLang.Expr.spelled, if_neg (hunary _ (by decide)), ih ha]
      rfl
  | LOAD addr size ih =>
      obtain ⟨a, rfl, ha⟩ := h
      rw [CLang.Expr.spelled, CLang.Expr.spelled, if_neg (hunary _ (by decide)), ih ha]
      rfl
  | ADDRESS operand ih =>
      obtain ⟨a, rfl, ha⟩ := h
      rw [CLang.Expr.spelled, if_neg (hunary _ (by decide)), ih ha]
      rfl
  | CAST type operand ih =>
      obtain ⟨a, rfl, ha⟩ := h
      rw [CLang.Expr.spelled, ih ha]
      rfl

theorem count_ident (w x : List UInt8) (ts : List CLang.Token) :
    (CLang.Token.ident x :: ts).count (.punct w) = ts.count (.punct w) := List.count_cons_of_ne (by simp)

theorem count_number (w : List UInt8) (d : Bool) (n : Nat) (ts : List CLang.Token) :
    (CLang.Token.number d n :: ts).count (.punct w) = ts.count (.punct w) := List.count_cons_of_ne (by simp)

theorem count_percent_type (T : CLang.TypeName) : T.tokens.count (.punct (ascii "%")) = 0 := by
  unfold CLang.TypeName.tokens
  rw [count_ident]
  cases T.pointer <;> decide

theorem count_percent_op (op : E9IROp) :
    (opTokens op).count (.punct (ascii "%")) = 2 * if op = .MOD then 1 else 0 := by
  cases op <;> decide

/-- A remainder is two tokens of the text. -/
theorem count_percent (v : E9IRValue) (precedence : Int) :
    (exprTokens v precedence).count (.punct (ascii "%")) = 2 * (binaryOps v).count .MOD := by
  have hpunct : ∀ {w : List UInt8} (ts : List CLang.Token), w ≠ ascii "%" →
      (CLang.Token.punct w :: ts).count (.punct (ascii "%")) = ts.count (.punct (ascii "%")) :=
    fun ts hw => List.count_cons_of_ne (by simpa using hw)
  have hl : ∀ ts : List CLang.Token, (CLang.lparen :: ts).count (.punct (ascii "%")) = ts.count (.punct (ascii "%")) :=
    fun ts => hpunct ts (by decide)
  have hr : ∀ ts : List CLang.Token, (CLang.rparen :: ts).count (.punct (ascii "%")) = ts.count (.punct (ascii "%")) :=
    fun ts => hpunct ts (by decide)
  induction v using E9IRValue.adjacent_induction generalizing precedence with
  | null => rfl
  | const constant =>
      rw [exprTokens, constTokens]
      split_ifs
      · rw [hl, hpunct _ (by decide), count_number, hr]
        rfl
      · rw [count_number]
        rfl
  | var v x hx =>
      rw [exprTokens_var hx, binaryOps_var hx, count_ident]
      rfl
  | binary op left right ihl ihr =>
      have hbody : (exprTokens left (op_precedence op) ++ (opTokens op ++ exprTokens right (op_precedence op))).count
          (.punct (ascii "%")) = 2 * (binaryOps (.binary op left right)).count .MOD := by
        rw [List.count_append, List.count_append, ihl, ihr, count_percent_op, binaryOps, List.count_cons,
          List.count_append]
        simp only [beq_iff_eq]
        omega
      rw [exprTokens]
      split_ifs
      · rw [hl, List.count_append, hbody, hr]
        rfl
      · exact hbody
  | neg_neg operand ih => exact (hpunct _ (by decide)).trans (ih 2)
  | neg operand hneg ih =>
      rw [exprTokens_neg hneg]
      exact (hpunct _ (by decide)).trans (ih 2)
  | not operand ih => exact (hpunct _ (by decide)).trans (ih 2)
  | load addr size ih =>
      rw [exprTokens, hpunct _ (by decide), hl, List.count_append, count_percent_type, hr, ih, Nat.zero_add]
      rfl
  | address_address operand ih => exact (hpunct _ (by decide)).trans (ih 2)
  | address operand haddress ih =>
      rw [exprTokens_address haddress]
      exact (hpunct _ (by decide)).trans (ih 2)
  | cast type operand ih =>
      rw [exprTokens, hl, List.count_append, count_percent_type, hr, ih, Nat.zero_add]
      rfl

/-- Signs and ampersands that are read as one token are seen in the text. -/
theorem apart_of_tokens {v : E9IRValue} {precedence : Int} (hminus : .punct (ascii "--") ∉ exprTokens v precedence)
    (hand : .punct (ascii "&&") ∉ exprTokens v precedence) : SignsApart v := by
  have htail : ∀ {t u : CLang.Token} {ts : List CLang.Token}, t ∉ u :: ts → t ∉ ts :=
    fun h hmem => h (List.mem_cons_of_mem _ hmem)
  induction v using E9IRValue.adjacent_induction generalizing precedence with
  | null => trivial
  | const constant => trivial
  | var v x hx => cases v <;> trivial
  | binary op left right ihl ihr =>
      have hbody : ∀ t, t ∉ exprTokens (.binary op left right) precedence →
          t ∉ exprTokens left (op_precedence op) ∧ t ∉ exprTokens right (op_precedence op) := by
        intro t ht
        rw [exprTokens] at ht
        split_ifs at ht <;> simp only [List.mem_cons, List.mem_append, not_or] at ht <;> tauto
      obtain ⟨h1, h2⟩ := hbody _ hminus
      obtain ⟨h3, h4⟩ := hbody _ hand
      exact ⟨ihl h1 h3, ihr h2 h4⟩
  | neg_neg operand ih => exact absurd List.mem_cons_self hminus
  | neg operand hneg ih =>
      rw [exprTokens_neg hneg] at hminus hand
      exact apart_neg.mpr ⟨hneg, ih (htail hminus) (htail hand)⟩
  | not operand ih => exact ih (htail hminus) (htail hand)
  | load addr size ih =>
      exact ih (fun h => hminus (List.mem_cons_of_mem _ (List.mem_cons_of_mem _ (List.mem_append_right _
        (List.mem_cons_of_mem _ h))))) fun h => hand (List.mem_cons_of_mem _ (List.mem_cons_of_mem _
          (List.mem_append_right _ (List.mem_cons_of_mem _ h))))
  | address_address operand ih => exact absurd List.mem_cons_self hand
  | address operand haddress ih =>
      rw [exprTokens_address haddress] at hminus hand
      exact apart_address.mpr ⟨haddress, ih (htail hminus) (htail hand)⟩
  | cast type operand ih =>
      exact ih (fun h => hminus (List.mem_cons_of_mem _ (List.mem_append_right _ (List.mem_cons_of_mem _ h))))
        fun h => hand (List.mem_cons_of_mem _ (List.mem_append_right _ (List.mem_cons_of_mem _ h)))

/-! ### The text of an expression -/

theorem decimal_length {w : Nat} (hw : w ≤ 64) (x : BitVec w) : (decimal x).length ≤ 21 := by
  have hlt : ∀ n : Nat, n < 10 ^ 20 → (numeral 10 n).length ≤ 20 := fun n hn =>
    numeral_length (by decide) (by decide) hn
  have hpow : 2 ^ w ≤ 2 ^ 64 := Nat.pow_le_pow_right (by decide) hw
  have hx := x.isLt
  have hint := BitVec.toInt_eq_toNat_cond x
  unfold decimal signedNumeral
  split_ifs with hneg
  · have := hlt (-x.toInt).toNat (by omega)
    rw [List.length_cons]
    omega
  · have := hlt x.toInt.toNat (by omega)
    omega

theorem constText_length (constant : BitVec 64) : (constText constant).length < 1024 := by
  have hdecimal := decimal_length (Nat.le_refl 64) constant
  have hhex : (numeral 16 constant.toNat).length ≤ 16 := numeral_length (by decide) (by decide) constant.isLt
  unfold constText
  split_ifs
  · rw [List.length_append, List.length_append, show (ascii "(").length = 1 from rfl, show (ascii ")").length = 1 from rfl]
    omega
  · rw [List.length_append, show (ascii "0x").length = 2 from rfl]
    omega
  · omega

/-- Apart from the names every piece is short. -/
theorem pieces_short {v : E9IRValue} (hnames : ∀ x ∈ names v, x.length < 1024) (precedence : Int) :
    ∀ s ∈ pieces v precedence, s.length < 1024 := by
  have hcons : ∀ {p : List UInt8} {ps : List (List UInt8)}, p.length < 1024 → (∀ s ∈ ps, s.length < 1024) →
      ∀ s ∈ p :: ps, s.length < 1024 := by
    intro p ps hp hps s hs
    rcases List.mem_cons.mp hs with rfl | hs
    · exact hp
    · exact hps s hs
  have hload : ∀ size, (ascii "*(" ++ loadType size ++ ascii " *)").length < 1024 := by
    intro size
    unfold loadType
    split_ifs <;> decide
  have hcast : ∀ type, (ascii "(" ++ type_to_c type ++ ascii ")").length < 1024 := by
    intro type
    rcases type with _ | type
    · decide
    · cases type <;> decide
  induction v using E9IRValue.adjacent_induction generalizing precedence with
  | null => exact hcons (by decide) (fun s hs => nomatch hs)
  | const constant => exact hcons (constText_length constant) (fun s hs => nomatch hs)
  | var v x hx =>
      rw [names_var hx] at hnames
      rw [pieces_var hx]
      exact hnames
  | binary op left right ihl ihr =>
      have hleft := ihl (fun x hx => hnames x (List.mem_append_left _ hx)) (op_precedence op)
      have hright := ihr (fun x hx => hnames x (List.mem_append_right _ hx)) (op_precedence op)
      have hop : (ascii " " ++ op_to_c op ++ ascii " ").length < 1024 := by cases op <;> decide
      have hbody : ∀ s ∈ pieces left (op_precedence op) ++ [ascii " " ++ op_to_c op ++ ascii " "] ++
          pieces right (op_precedence op), s.length < 1024 := by
        intro s hs
        simp only [List.mem_append, List.mem_singleton] at hs
        rcases hs with (hs | rfl) | hs
        · exact hleft s hs
        · exact hop
        · exact hright s hs
      rw [pieces]
      split_ifs
      · intro s hs
        simp only [List.mem_append, List.mem_singleton] at hs
        rcases hs with (rfl | hs) | rfl
        · decide
        · exact hbody s (by simpa only [List.mem_append, List.mem_singleton] using hs)
        · decide
      · exact hbody
  | neg_neg operand ih => exact hcons (by decide) (hcons (by decide) (ih hnames 2))
  | neg operand hneg ih => exact hcons (by decide) (ih hnames 2)
  | not operand ih => exact hcons (by decide) (ih hnames 2)
  | load addr size ih => exact hcons (hload size) (ih hnames 2)
  | address_address operand ih => exact hcons (by decide) (hcons (by decide) (ih hnames 2))
  | address operand haddress ih => exact hcons (by decide) (ih hnames 2)
  | cast type operand ih => exact hcons (hcast type) (ih hnames 2)

/-- A name is a piece. -/
theorem mem_pieces_of_names {v : E9IRValue} {x : List UInt8} (hx : x ∈ names v) (precedence : Int) :
    x ∈ pieces v precedence := by
  induction v using E9IRValue.adjacent_induction generalizing precedence with
  | null => cases hx
  | const constant => cases hx
  | var v y hy =>
      rw [names_var hy] at hx
      rw [pieces_var hy]
      exact hx
  | binary op left right ihl ihr =>
      have hmem : x ∈ pieces left (op_precedence op) ∨ x ∈ pieces right (op_precedence op) :=
        (List.mem_append.mp hx).imp (fun h => ihl h _) fun h => ihr h _
      rw [pieces]
      split_ifs <;> simp only [List.mem_append] <;> tauto
  | neg_neg operand ih => exact List.mem_cons_of_mem _ (List.mem_cons_of_mem _ (ih hx 2))
  | neg operand hneg ih => exact List.mem_cons_of_mem _ (ih hx 2)
  | not operand ih => exact List.mem_cons_of_mem _ (ih hx 2)
  | load addr size ih => exact List.mem_cons_of_mem _ (ih hx 2)
  | address_address operand ih => exact List.mem_cons_of_mem _ (List.mem_cons_of_mem _ (ih hx 2))
  | address operand haddress ih => exact List.mem_cons_of_mem _ (ih hx 2)
  | cast type operand ih => exact List.mem_cons_of_mem _ (ih hx 2)

theorem closes_nil : Closes [] := nofun

theorem operandLevel_spec (precedence : Int) :
    2 ≤ operandLevel precedence ∧ (precedence ≤ operandLevel precedence + 1 ∨ 10 ≤ operandLevel precedence) := by
  unfold operandLevel CLang.topLevel
  omega

theorem Spelled.derives {v : E9IRValue} (h : Spelled v) (precedence : Int) :
    CLang.Derives typeNames (operandLevel precedence) (exprTokens v precedence) (cTree v) := by
  obtain ⟨hn, hlevel⟩ := operandLevel_spec precedence
  exact derives_cTree h.names h.ops h.apart hn hlevel

/-- A text that means what the tree means is the text of a tree that is read as it. -/
theorem spelled_of_emitsRight {v : E9IRValue} {precedence : Int} (h : EmitsRight v precedence) : Spelled v ∧
    ∀ env x, irValue env v = some x → CLang.eval env (cTree v) = some x := by
  have hshort := short_of_emitAll fun dc => by
    obtain ⟨dc', -, -, -, hemit, -⟩ := h dc
    exact ⟨dc', (emit_value_eq dc v precedence).symm.trans hemit⟩
  obtain ⟨dc', text, ts, e, hemit, houtput, hlexes, hderives, -, hsame, hvalue⟩ := h ⟨[], 0, Nat.le_refl 0⟩
  rw [emit_value_eq] at hemit
  have htext : text = (pieces v precedence).flatten := by
    rw [emitAll_output hemit] at houtput
    exact (List.append_cancel_left houtput).symm
  have hnames : ∀ x ∈ names v, IsName x := by
    intro x hx
    obtain ⟨hmem, hkeyword, htype⟩ := hderives.vars (hsame.names_mem hx)
    exact ⟨hlexes.isIdent hmem, ⟨hkeyword, htype⟩, hshort x (mem_pieces_of_names hx precedence)⟩
  -- the text has these tokens and no others, so that what they spell is what the tree has
  have htokens : ts = exprTokens v precedence := by
    have hlexes' := lexes_pieces precedence (fun x hx => (hnames x hx).ident) closes_nil CLang.Lexes.nil
    rw [List.append_nil, List.append_nil, ← htext] at hlexes'
    exact hlexes.unique hlexes'
  have hspelled : ∀ w ∈ [ascii "%", ascii "--", ascii "&&"], (exprTokens v precedence).count (.punct w) =
      if w = ascii "%" then (binaryOps v).count .MOD else 0 := by
    intro w hw
    have hparens : ∀ w ∈ [ascii "%", ascii "--", ascii "&&"], ascii "(" ≠ w ∧ ascii ")" ≠ w ∧ ascii "*" ≠ w := by decide
    obtain ⟨hl, hr, hstar⟩ := hparens w hw
    rw [← htokens, hderives.count_punct hl hr hstar, hsame.spelled_eq hw]
  have hspelled : Spelled v := by
    refine ⟨hnames, ?_, ?_⟩
    · rintro op hop rfl
      have hpos := List.count_pos_iff.mpr hop
      have htwice := (count_percent v precedence).symm.trans (hspelled (ascii "%") (by decide))
      rw [if_pos rfl] at htwice
      omega
    · exact @apart_of_tokens v precedence (List.count_eq_zero.mp (hspelled (ascii "--") (by decide)))
        (List.count_eq_zero.mp (hspelled (ascii "&&") (by decide)))
  obtain rfl := hderives.unique (htokens ▸ hspelled.derives precedence)
  exact ⟨hspelled, hvalue⟩

/-! ### The trees of the operands -/

theorem mem_subtrees_self (v : E9IRValue) : v ∈ subtrees v := by
  cases v <;> exact List.mem_cons_self

/-- What is true of a tree, and then of its operands, is true of the trees under it. -/
theorem subtrees_induction {P : E9IRValue → Prop} (hbinary : ∀ op l r, P (.binary op l r) → P l ∧ P r)
    (hneg : ∀ a, P (.NEG a) → P a) (hnot : ∀ a, P (.NOT a) → P a) (hload : ∀ a size, P (.LOAD a size) → P a)
    (haddress : ∀ a, P (.ADDRESS a) → P a) (hcast : ∀ type a, P (.CAST type a) → P a) {v : E9IRValue} (hv : P v) :
    ∀ w ∈ subtrees v, P w := by
  have hunary : ∀ {v a : E9IRValue}, P v → (∀ w ∈ subtrees a, P w) → ∀ w ∈ v :: subtrees a, P w :=
    fun hv ha => List.forall_mem_cons.mpr ⟨hv, ha⟩
  induction v with
  | binary op left right ihl ihr =>
      obtain ⟨hl, hr⟩ := hbinary op left right hv
      exact List.forall_mem_cons.mpr ⟨hv, List.forall_mem_append.mpr ⟨ihl hl, ihr hr⟩⟩
  | NEG operand ih => exact hunary hv (ih (hneg operand hv))
  | NOT operand ih => exact hunary hv (ih (hnot operand hv))
  | LOAD addr size ih => exact hunary hv (ih (hload addr size hv))
  | ADDRESS operand ih => exact hunary hv (ih (haddress operand hv))
  | CAST type operand ih => exact hunary hv (ih (hcast type operand hv))
  | _ => exact List.forall_mem_singleton.mpr hv

theorem Spelled.subtree {v : E9IRValue} (h : Spelled v) : ∀ w ∈ subtrees v, Spelled w := by
  refine subtrees_induction (fun op l r h => ?_) (fun a h => ?_) (fun a h => ?_) (fun a size h => ?_) (fun a h => ?_)
    (fun type a h => ?_) h
  · exact ⟨⟨fun x hx => h.names x (List.mem_append_left _ hx),
        fun o ho => h.ops o (List.mem_cons_of_mem _ (List.mem_append_left _ ho)), h.apart.1⟩,
      ⟨fun x hx => h.names x (List.mem_append_right _ hx),
        fun o ho => h.ops o (List.mem_cons_of_mem _ (List.mem_append_right _ ho)), h.apart.2⟩⟩
  · exact ⟨h.names, h.ops, (apart_neg.mp h.apart).2⟩
  · exact ⟨h.names, h.ops, h.apart⟩
  · exact ⟨h.names, h.ops, h.apart⟩
  · exact ⟨h.names, h.ops, (apart_address.mp h.apart).2⟩
  · exact ⟨h.names, h.ops, h.apart⟩

theorem subtrees_trans {v : E9IRValue} : ∀ w ∈ subtrees v, ∀ u ∈ subtrees w, u ∈ subtrees v := by
  refine subtrees_induction (P := fun w => ∀ u ∈ subtrees w, u ∈ subtrees v) (fun op l r h => ?_) (fun a h => ?_)
    (fun a h => ?_) (fun a size h => ?_) (fun a h => ?_) (fun type a h => ?_) fun u hu => hu
  · exact ⟨fun u hu => h u (List.mem_cons_of_mem _ (List.mem_append_left _ hu)),
      fun u hu => h u (List.mem_cons_of_mem _ (List.mem_append_right _ hu))⟩
  all_goals exact fun u hu => h u (List.mem_cons_of_mem _ hu)

theorem Printable.emitsRight {v : E9IRValue} (h : Printable v) (precedence : Int) : EmitsRight v precedence := by
  intro dc
  obtain ⟨dc', hemit⟩ := emitAll_short (pieces_short (fun x hx => (h.spelled.names x hx).short) precedence) dc
  have hlexes := lexes_pieces precedence (fun x hx => (h.spelled.names x hx).ident) closes_nil CLang.Lexes.nil
  rw [List.append_nil, List.append_nil] at hlexes
  have hderives := h.spelled.derives precedence
  exact ⟨dc', _, _, _, (emit_value_eq dc v precedence).trans hemit, emitAll_output hemit, hlexes, hderives,
    fun n e' h' => h'.unique hderives, sameTree_cTree v, fun env x hx => (eval_cTree h.computes env x hx).1⟩

/-- Operands of the type of the variables suit an operator that goes by signs. -/
theorem computes_long {op : E9IROp} {left right : E9IRValue} (hl : cType left = some (.int true 64))
    (hr : cType right = some (.int true 64)) (hop : op ≠ .MOD) (hops : op ∉ unsignedOps) :
    Computes (.binary op left right) :=
  fun _ _ _ _ _ _ hz => ⟨_, _, hl, hr, suits_long _ _ hop hops hz⟩

-- `_rax - _rbx * _rcx`
example : EmitsRight (.binary .SUB (.REG 0) (.binary .MUL (.REG 1) (.REG 2))) 15 := by
  have hnames : ∀ x ∈ names (.binary .SUB (.REG 0) (.binary .MUL (.REG 1) (.REG 2))),
      ((∃ c ∈ x.head?, CLang.isLetter c = true) ∧ ∀ c ∈ x, CLang.isWordChar c = true) ∧
        (x ∉ CLang.keywords ∧ x ∉ typeNames) ∧ x.length < 1024 := by
    decide +kernel
  refine Printable.emitsRight ⟨⟨fun x hx => ?_, by decide, by simp [SignsApart]⟩, ?_⟩ 15
  · obtain ⟨hident, hfree, hshort⟩ := hnames x hx
    exact ⟨hident, hfree, hshort⟩
  · refine List.forall_mem_cons.mpr ⟨computes_long rfl rfl (by decide) (by decide), ?_⟩
    refine List.forall_mem_cons.mpr ⟨trivial, ?_⟩
    refine List.forall_mem_cons.mpr ⟨computes_long rfl rfl (by decide) (by decide), ?_⟩
    simp [Computes, subtrees]

/-- Where the text has the values of a tree and of its operands, the operator suits them. -/
theorem computes_of_values {v : E9IRValue} (hops : ∀ op ∈ binaryOps v, op ≠ .MOD)
    (h : ∀ w ∈ subtrees v, ∀ env x, irValue env w = some x → CLang.eval env (cTree w) = some x) : Computes v := by
  have hself := h v (mem_subtrees_self v)
  cases v with
  | CONST constant =>
      exact (eval_constTree ⟨fun _ => 0, fun _ => 0, fun _ => 0⟩ constant).mp (hself _ constant rfl)
  | binary op left right =>
      intro env x y z hx hy hz
      have hl := h left (List.mem_cons_of_mem _ (List.mem_append_left _ (mem_subtrees_self left))) env x hx
      have hr := h right (List.mem_cons_of_mem _ (List.mem_append_right _ (mem_subtrees_self right))) env y hy
      have heval := hself env z (by rw [irValue, hx, hy]; exact hz)
      rw [cTree, eval_binary, hl, hr] at heval
      obtain ⟨t, ht, heval⟩ := Option.bind_eq_some_iff.mp heval
      obtain ⟨u, hu, heval⟩ := Option.bind_eq_some_iff.mp heval
      have hop := hops op List.mem_cons_self
      exact ⟨t, u, ht, hu, (suits_iff (CLang.eval_has ht hl) (CLang.eval_has hu hr) hop hz).mp heval⟩
  | NEG operand =>
      intro env x hx
      have ha := h operand (List.mem_cons_of_mem _ (mem_subtrees_self operand)) env x hx
      have heval := hself env (-x) (by rw [irValue, hx]; rfl)
      rw [cTree, eval_minus, ha] at heval
      obtain ⟨t, ht, heval⟩ := Option.bind_eq_some_iff.mp heval
      exact ⟨t, ht, (suits_minus (CLang.eval_has ht ha)).mp heval⟩
  | NOT operand =>
      intro env x hx
      have ha := h operand (List.mem_cons_of_mem _ (mem_subtrees_self operand)) env x hx
      have heval := hself env (~~~x) (by rw [irValue, hx]; rfl)
      rw [cTree, eval_complement, ha] at heval
      obtain ⟨t, ht, heval⟩ := Option.bind_eq_some_iff.mp heval
      exact ⟨t, ht, (suits_complement (CLang.eval_has ht ha)).mp heval⟩
  | _ => trivial

/-- Where `rax` is -1, and all else is zero. -/
def minusOne : CLang.Env := ⟨fun x => if x = ascii "_rax" then -1 else 0, fun _ => 0, fun _ => 0xFF⟩

theorem not_emitsRight {v : E9IRValue} {precedence : Int} (env : CLang.Env) {x : BitVec 64} (hx : irValue env v = some x)
    (hne : CLang.eval env (cTree v) ≠ some x) : ¬EmitsRight v precedence :=
  fun h => hne ((spelled_of_emitsRight h).2 env x hx)

end E9Patch
