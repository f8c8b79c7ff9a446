import E9Patch.MatchModel
import E9Patch.Fallible

/-!
What a matching expression means, and where `matchDoEval` departs from it. The meaning is a function of
the meanings of the operands. One step of the evaluation is compared with it under the assumption that
the operands agree; the trees follow by induction. There are three departures: a binary operator whose
right side is no integer, the negation of the least integer, and the complement of anything but zero.
-/

namespace E9Tool
open Bytes Fallible
open E9Patch (toU64 INTPTR_MIN INTPTR_MAX)

variable {ν ρ : Type}

/-! ### The meaning of an expression -/

/-- A result that does not fit into 64 bits is undefined. -/
def exact (x : Int) : MatchVal ρ := if INTPTR_MIN ≤ x ∧ x ≤ INTPTR_MAX then .INTEGER x else .UNDEFINED

/-- The 64-bit result of a shift: nothing is shifted by a count that is not positive, and all bits are
shifted out by one of 64 or more. -/
def shift (f : Int → Nat → Int) (a b : Int) : Int :=
  if b ≤ 0 then a else if 64 ≤ b then 0 else f a b.toNat

/-- A binary operator on integers. -/
def BinaryOp.meaning (op : BinaryOp) (a b : Int) : MatchVal ρ :=
  match op with
  | .ADD => exact (a + b)
  | .SUB => exact (a - b)
  | .MUL => exact (a * b)
  | .DIV => if b = 0 then .UNDEFINED else exact (a.tdiv b)
  | .MOD => if b = 0 then .UNDEFINED else exact (a.tmod b)
  | .BIT_AND => .INTEGER (BitVec.ofInt 64 a &&& BitVec.ofInt 64 b).toInt
  | .BIT_OR => .INTEGER (BitVec.ofInt 64 a ||| BitVec.ofInt 64 b).toInt
  | .BIT_XOR => .INTEGER (BitVec.ofInt 64 a ^^^ BitVec.ofInt 64 b).toInt
  | .LSHIFT => .INTEGER (shift (fun a n => (BitVec.ofInt 64 a <<< n).toInt) a b)
  | .RSHIFT => .INTEGER (shift (fun a n => a / 2 ^ n) a b)

/-- What counts as true; an undefined value does not. -/
def MatchVal.truth : MatchVal ρ → Bool
  | .atom (.INTEGER i) => i ≠ 0
  | _ => false

/-- Whether a comparison of two defined values holds. -/
def CompareOp.holds (env : Env ν ρ) (op : CompareOp) (v w : MatchVal ρ) : Bool :=
  match compareVals env op v w with
  | .ok b => b
  | .error _ => false

def MatchVal.isDefined : MatchVal ρ → Bool
  | .UNDEFINED => false
  | _ => true

def MatchVal.isInteger : MatchVal ρ → Bool
  | .atom (.INTEGER _) => true
  | _ => false

/-- The meaning of an expression. -/
def meaning (env : Env ν ρ) : MatchExpr ν ρ → MatchVal ρ
  | .VAL val => val
  | .VAR var => env.var var
  | .DEFINED e => .bool (meaning env e).isDefined
  | .NOT e => .bool (!(meaning env e).truth)
  | .AND e f => .bool ((meaning env e).truth && (meaning env f).truth)
  | .OR e f => .bool ((meaning env e).truth || (meaning env f).truth)
  | .COMPARE op e f =>
    match meaning env e, meaning env f with
    | .UNDEFINED, _ | _, .UNDEFINED => .bool false
    | v, w => .bool (op.holds env v w)
  | .NEG e =>
    match meaning env e with
    | .atom (.INTEGER a) => exact (-a)
    | _ => .UNDEFINED
  | .BIT_NOT e =>
    match meaning env e with
    | .atom (.INTEGER a) => .INTEGER (~~~BitVec.ofInt 64 a).toInt
    | _ => .UNDEFINED
  | .BINARY op e f =>
    match meaning env e, meaning env f with
    | .atom (.INTEGER a), .atom (.INTEGER b) => op.meaning a b
    | _, _ => .UNDEFINED

/-- A value that can be cast to a Boolean. -/
def MatchVal.Castable (v : MatchVal ρ) : Prop := v.isDefined → v.isInteger

/-- A tree without type errors: what is cast to a Boolean is an integer or undefined, and what is compared
can be. -/
def WellTyped (env : Env ν ρ) : MatchExpr ν ρ → Prop
  | .VAL _ | .VAR _ => True
  | .DEFINED e | .NEG e | .BIT_NOT e => WellTyped env e
  | .NOT e => WellTyped env e ∧ (meaning env e).Castable
  | .AND e f | .OR e f =>
    WellTyped env e ∧ WellTyped env f ∧ (meaning env e).Castable ∧ (meaning env f).Castable
  | .COMPARE op e f => WellTyped env e ∧ WellTyped env f ∧ ((meaning env e).isDefined →
      (meaning env f).isDefined → ∃ b, compareVals env op (meaning env e) (meaning env f) = .ok b)
  | .BINARY _ e f => WellTyped env e ∧ WellTyped env f

/-- All the trees in a tree. -/
def MatchExpr.subexprs : MatchExpr ν ρ → List (MatchExpr ν ρ)
  | .VAL v => [.VAL v]
  | .VAR x => [.VAR x]
  | .DEFINED e => .DEFINED e :: e.subexprs
  | .NOT e => .NOT e :: e.subexprs
  | .AND e f => .AND e f :: (e.subexprs ++ f.subexprs)
  | .OR e f => .OR e f :: (e.subexprs ++ f.subexprs)
  | .COMPARE op e f => .COMPARE op e f :: (e.subexprs ++ f.subexprs)
  | .NEG e => .NEG e :: e.subexprs
  | .BIT_NOT e => .BIT_NOT e :: e.subexprs
  | .BINARY op e f => .BINARY op e f :: (e.subexprs ++ f.subexprs)

/-- The trees that `matchDoEval` gets wrong, with the right values for the operands: the negation of an
integer that has none in 64 bits (the least one), the complement of an integer that is not zero, and a
binary operator with an integer on the left only, that has a result for what the right side reads as. -/
def Defect (env : Env ν ρ) : MatchExpr ν ρ → Prop
  | .NEG e => ∃ a, meaning env e = .INTEGER a ∧ ¬(INTPTR_MIN ≤ -a ∧ -a ≤ INTPTR_MAX)
  | .BIT_NOT e => ∃ a, meaning env e = .INTEGER a ∧ a % 2 ^ 64 ≠ 0
  | .BINARY op e f => ∃ a, meaning env e = .INTEGER a ∧ (meaning env f).isInteger = false ∧
      (op.meaning a ((meaning env f).i env) : MatchVal ρ) ≠ .UNDEFINED
  | _ => False

/-! ### Values -/

theorem type_undefined (v : MatchVal ρ) : v.type = 0x0000 ↔ v = .UNDEFINED := by
  cases v with
  | UNDEFINED => simp [MatchVal.type]
  | atom a => cases a <;> simp [MatchVal.type, Atom.type]
  | SET s => simp [MatchVal.type]

theorem type_integer (v : MatchVal ρ) : v.type = 0x0002 ↔ ∃ a, v = .INTEGER a := by
  cases v with
  | UNDEFINED => simp [MatchVal.type, MatchVal.INTEGER]
  | atom a => cases a <;> simp [MatchVal.type, Atom.type, MatchVal.INTEGER]
  | SET s => simp [MatchVal.type, MatchVal.INTEGER]

theorem isInteger_iff (v : MatchVal ρ) : v.isInteger = true ↔ ∃ a, v = .INTEGER a := by
  cases v with
  | UNDEFINED => simp [MatchVal.isInteger, MatchVal.INTEGER]
  | atom a => cases a <;> simp [MatchVal.isInteger, MatchVal.INTEGER]
  | SET s => simp [MatchVal.isInteger, MatchVal.INTEGER]

theorem castToBool_truth {v : MatchVal ρ} (h : v.Castable) : matchCastToBool v = .ok v.truth := by
  cases v with
  | UNDEFINED => rfl
  | atom a =>
      obtain ⟨b, hb⟩ := (isInteger_iff _).mp (h rfl)
      rw [hb]
      rfl
  | SET s => exact absurd (h rfl) nofun

/-! ### The operators -/

theorem check128_exact (x : Int) : (check128 x : MatchVal ρ) = exact x := by
  unfold check128 exact
  by_cases h : INTPTR_MIN ≤ x ∧ x ≤ INTPTR_MAX
  · rw [if_pos h, if_neg (by omega)]
  · rw [if_neg h, if_pos (by omega)]

theorem toU64_toNat (a : Int) : toU64 a = (BitVec.ofInt 64 a).toNat := by
  rw [BitVec.toNat_ofInt]
  rfl

theorem signed64_toNat (x : BitVec 64) : signed64 (x.toNat : Nat) = x.toInt := by
  have hx := x.isLt
  rw [BitVec.toInt_eq_toNat_cond]
  unfold signed64
  split <;> omega

/-- On two integers the operators are right. -/
theorem binaryOp_meaning (op : BinaryOp) (a b : Int) : (binaryOp op a b : MatchVal ρ) = op.meaning a b := by
  cases op with
  | ADD | SUB | MUL => exact check128_exact _
  | DIV | MOD =>
      unfold binaryOp BinaryOp.meaning
      simp only [check128_exact]
  | BIT_AND =>
      unfold binaryOp BinaryOp.meaning
      rw [toU64_toNat, toU64_toNat, ← BitVec.toNat_and, signed64_toNat]
  | BIT_OR =>
      unfold binaryOp BinaryOp.meaning
      rw [toU64_toNat, toU64_toNat, ← BitVec.toNat_or, signed64_toNat]
  | BIT_XOR =>
      unfold binaryOp BinaryOp.meaning
      rw [toU64_toNat, toU64_toNat, ← BitVec.toNat_xor, signed64_toNat]
  | LSHIFT =>
      unfold binaryOp BinaryOp.meaning shift
      rw [toU64_toNat, ← BitVec.toNat_shiftLeft, signed64_toNat]
  | RSHIFT => rfl

attribute [local simp] matchDoEval meaning Defect

/-! ### One step of the evaluation -/

/-- The evaluation gives the meaning. -/
def Agrees (env : Env ν ρ) (e : MatchExpr ν ρ) : Prop := matchDoEval env e = .ok (meaning env e)

section
variable {env : Env ν ρ} {e f : MatchExpr ν ρ}

theorem eval_defined (he : Agrees env e) : Agrees env (.DEFINED e) := by
  unfold Agrees at he ⊢
  rw [matchDoEval, he]
  show Except.ok (MatchVal.bool _) = Except.ok (MatchVal.bool _)
  cases meaning env e with
  | UNDEFINED => rfl
  | atom a => cases a <;> rfl
  | SET s => rfl

theorem eval_not (he : Agrees env e) (hc : (meaning env e).Castable) : Agrees env (.NOT e) := by
  unfold Agrees at he ⊢
  rw [matchDoEval, he, bind_ok]
  refine ⟨_, rfl, ?_⟩
  rw [castToBool_truth hc]
  rfl

theorem eval_and (he : Agrees env e) (hf : Agrees env f) (hce : (meaning env e).Castable)
    (hcf : (meaning env f).Castable) : Agrees env (.AND e f) := by
  unfold Agrees at he hf ⊢
  rw [matchDoEval, he, hf, bind_ok]
  refine ⟨_, rfl, ?_⟩
  rw [castToBool_truth hce, bind_ok]
  refine ⟨_, rfl, ?_⟩
  rw [meaning]
  cases (meaning env e).truth with
  | false => rfl
  | true =>
      show (matchCastToBool (meaning env f) >>= _) = _
      rw [castToBool_truth hcf]
      rfl

theorem eval_or (he : Agrees env e) (hf : Agrees env f) (hce : (meaning env e).Castable)
    (hcf : (meaning env f).Castable) : Agrees env (.OR e f) := by
  unfold Agrees at he hf ⊢
  rw [matchDoEval, he, hf, bind_ok]
  refine ⟨_, rfl, ?_⟩
  rw [castToBool_truth hce, bind_ok]
  refine ⟨_, rfl, ?_⟩
  rw [meaning]
  cases (meaning env e).truth with
  | true => rfl
  | false =>
      show (matchCastToBool (meaning env f) >>= _) = _
      rw [castToBool_truth hcf]
      rfl

/-- The meaning of a comparison of two defined values. -/
theorem meaning_compare (op : CompareOp) (he : (meaning env e).isDefined) (hf : (meaning env f).isDefined) :
    meaning env (.COMPARE op e f) = .bool (op.holds env (meaning env e) (meaning env f)) := by
  rw [meaning]
  cases hm : meaning env e with
  | UNDEFINED =>
      rw [hm] at he
      exact absurd he nofun
  | atom a | SET s =>
      cases hn : meaning env f with
      | UNDEFINED =>
          rw [hn] at hf
          exact absurd hf nofun
      | atom b | SET t => rfl

theorem isDefined_of_ne {v : MatchVal ρ} (h : v ≠ .UNDEFINED) : v.isDefined = true := by
  cases v with
  | UNDEFINED => exact absurd rfl h
  | atom a | SET s => rfl

theorem eval_compare {op : CompareOp} (he : Agrees env e) (hf : Agrees env f)
    (hok : (meaning env e).isDefined → (meaning env f).isDefined →
      ∃ b, compareVals env op (meaning env e) (meaning env f) = .ok b) : Agrees env (.COMPARE op e f) := by
  unfold Agrees at he hf ⊢
  rw [matchDoEval, he, hf, bind_ok]
  refine ⟨_, rfl, ?_⟩
  by_cases h1 : meaning env e = .UNDEFINED
  · rw [if_pos ((type_undefined _).mpr h1), meaning, h1]
    rfl
  rw [if_neg (mt (type_undefined _).mp h1)]
  show (if (meaning env f).type = 0x0000 then _ else _) = _
  by_cases h2 : meaning env f = .UNDEFINED
  · rw [if_pos ((type_undefined _).mpr h2), meaning, h2]
    cases meaning env e <;> rfl
  rw [if_neg (mt (type_undefined _).mp h2), meaning_compare op (isDefined_of_ne h1) (isDefined_of_ne h2)]
  obtain ⟨b, hb⟩ := hok (isDefined_of_ne h1) (isDefined_of_ne h2)
  rw [CompareOp.holds, hb]
  rfl

/-- What is not an integer is left undefined by the unary operators. -/
theorem meaning_unary (h : ∀ a, meaning env e ≠ .INTEGER a) :
    meaning env (.NEG e) = .UNDEFINED ∧ meaning env (.BIT_NOT e) = .UNDEFINED := by
  rw [meaning, meaning]
  cases hm : meaning env e with
  | UNDEFINED | SET s => exact ⟨rfl, rfl⟩
  | atom a =>
      cases a with
      | INTEGER i => exact absurd hm (h i)
      | _ => exact ⟨rfl, rfl⟩

theorem integer_inj {a b : Int} : (MatchVal.INTEGER a : MatchVal ρ) = .INTEGER b ↔ a = b := by
  simp [MatchVal.INTEGER]

/-- The code of the unary operators, with what they do to an integer as `g`. -/
theorem unary_code (he : Agrees env e) (g : MatchVal ρ → MatchVal ρ) :
    (do let lhs ← matchDoEval env e
        if lhs.type ≠ 0x0002 then return .UNDEFINED
        return g lhs : Except MatchError (MatchVal ρ)) =
      .ok (if (meaning env e).isInteger then g (meaning env e) else .UNDEFINED) := by
  rw [show matchDoEval env e = .ok (meaning env e) from he, bind_ok]
  refine ⟨_, rfl, ?_⟩
  by_cases hint : (meaning env e).isInteger = true
  · rw [if_pos hint, if_neg (not_not.mpr ((type_integer _).mpr ((isInteger_iff _).mp hint)))]
    rfl
  · rw [if_neg hint, if_pos (mt (type_integer _).mp (mt (isInteger_iff _).mpr hint))]
    rfl

theorem eval_neg (he : Agrees env e) : Agrees env (.NEG e) ↔ ¬Defect env (.NEG e) := by
  unfold Agrees
  rw [matchDoEval, unary_code he fun v => .INTEGER (signed64 (-(v.i env)))]
  by_cases hint : (meaning env e).isInteger = true
  · rw [if_pos hint]
    obtain ⟨a, ha⟩ := (isInteger_iff _).mp hint
    have hdefect : Defect env (.NEG e) ↔ ¬(INTPTR_MIN ≤ -a ∧ -a ≤ INTPTR_MAX) := by
      rw [Defect]
      constructor
      · rintro ⟨b, hb, h⟩
        rwa [integer_inj.mp (ha.symm.trans hb)]
      · exact fun h => ⟨a, ha, h⟩
    rw [hdefect, not_not, meaning, ha]
    show Except.ok (MatchVal.INTEGER (signed64 (-a))) = Except.ok (exact (-a)) ↔ _
    unfold exact
    by_cases hfit : INTPTR_MIN ≤ -a ∧ -a ≤ INTPTR_MAX
    · have hsigned : signed64 (-a) = -a := by
        simp only [INTPTR_MIN, INTPTR_MAX] at hfit
        unfold signed64
        omega
      rw [if_pos hfit, hsigned]
      exact ⟨fun _ => hfit, fun _ => rfl⟩
    · rw [if_neg hfit]
      exact ⟨fun h => by simp [MatchVal.INTEGER] at h, fun h => absurd h hfit⟩
  · have hne : ∀ a, meaning env e ≠ .INTEGER a := fun a ha => hint ((isInteger_iff _).mpr ⟨a, ha⟩)
    rw [if_neg hint, (meaning_unary hne).1]
    exact ⟨fun _ ⟨a, ha, _⟩ => hne a ha, fun _ => rfl⟩

/-- The complement of zero is the only one that the code finds. -/
theorem complement_zero (a : Int) : (~~~BitVec.ofInt 64 a).toInt = -1 ↔ a % 2 ^ 64 = 0 := by
  have hminus : (-1 : Int) = (~~~(0 : BitVec 64)).toInt := by decide
  rw [hminus, BitVec.toInt_inj, BitVec.not_inj, ← BitVec.toNat_inj, BitVec.toNat_ofInt]
  show (a % 2 ^ 64).toNat = 0 ↔ _
  omega

theorem eval_bit_not (he : Agrees env e) : Agrees env (.BIT_NOT e) ↔ ¬Defect env (.BIT_NOT e) := by
  unfold Agrees
  rw [matchDoEval, unary_code he fun _ => .INTEGER (signed64 (2 ^ 64 - 1 - toU64 0))]
  by_cases hint : (meaning env e).isInteger = true
  · rw [if_pos hint]
    obtain ⟨a, ha⟩ := (isInteger_iff _).mp hint
    have hdefect : Defect env (.BIT_NOT e) ↔ a % 2 ^ 64 ≠ 0 := by
      rw [Defect]
      constructor
      · rintro ⟨b, hb, h⟩
        rwa [integer_inj.mp (ha.symm.trans hb)]
      · exact fun h => ⟨a, ha, h⟩
    rw [hdefect, not_not, meaning, ha, ← complement_zero]
    show Except.ok (MatchVal.INTEGER (-1)) = Except.ok (MatchVal.INTEGER _) ↔ _
    rw [Except.ok.injEq, integer_inj]
    exact eq_comm
  · have hne : ∀ a, meaning env e ≠ .INTEGER a := fun a ha => hint ((isInteger_iff _).mpr ⟨a, ha⟩)
    rw [if_neg hint, (meaning_unary hne).2]
    exact ⟨fun _ ⟨a, ha, _⟩ => hne a ha, fun _ => rfl⟩

/-- A binary operator reads the right side as an integer whatever it is. -/
theorem eval_binary {op : BinaryOp} (he : Agrees env e) (hf : Agrees env f) :
    Agrees env (.BINARY op e f) ↔ ¬Defect env (.BINARY op e f) := by
  unfold Agrees
  have hcode : matchDoEval env (.BINARY op e f) = .ok (if (meaning env e).isInteger then
      binaryOp op ((meaning env e).i env) ((meaning env f).i env) else .UNDEFINED) := by
    rw [matchDoEval, show matchDoEval env e = .ok (meaning env e) from he,
      show matchDoEval env f = .ok (meaning env f) from hf, bind_ok]
    refine ⟨_, rfl, ?_⟩
    by_cases hint : (meaning env e).isInteger = true
    · have htype := not_not.mpr ((type_integer _).mpr ((isInteger_iff _).mp hint))
      rw [if_pos hint, if_neg htype]
      show (if (meaning env e).type ≠ 0x0002 then _ else _) = _
      rw [if_neg htype]
      rfl
    · rw [if_neg hint, if_pos (mt (type_integer _).mp (mt (isInteger_iff _).mpr hint))]
      rfl
  rw [hcode]
  by_cases hint : (meaning env e).isInteger = true
  · rw [if_pos hint]
    obtain ⟨a, ha⟩ := (isInteger_iff _).mp hint
    have hi : (meaning env e).i env = a := by
      rw [ha]
      rfl
    rw [hi, binaryOp_meaning]
    by_cases hright : (meaning env f).isInteger = true
    · obtain ⟨b, hb⟩ := (isInteger_iff _).mp hright
      rw [meaning, ha, hb]
      refine ⟨fun _ ⟨_, _, hn, _⟩ => ?_, fun _ => rfl⟩
      rw [hright] at hn
      cases hn
    · have hundef : meaning env (.BINARY op e f) = .UNDEFINED := by
        rw [meaning, ha]
        cases hm : meaning env f with
        | UNDEFINED | SET s => rfl
        | atom x =>
            rw [hm] at hright
            cases x with
            | INTEGER b => exact absurd rfl hright
            | _ => rfl
      rw [hundef, Except.ok.injEq]
      constructor
      · rintro h ⟨b, hb, -, hn⟩
        rw [← integer_inj.mp (ha.symm.trans hb)] at hn
        exact hn h
      · intro h
        by_contra hn
        exact h ⟨a, ha, Bool.not_eq_true _ ▸ hright, hn⟩
  · have hne : ∀ a, meaning env e ≠ .INTEGER a := fun a ha => hint ((isInteger_iff _).mpr ⟨a, ha⟩)
    have hundef : meaning env (.BINARY op e f) = .UNDEFINED := by
      rw [meaning]
      cases hm : meaning env e with
      | UNDEFINED | SET s => rfl
      | atom x =>
          cases x with
          | INTEGER a => exact absurd hm (hne a)
          | _ => rfl
    rw [if_neg hint, hundef]
    exact ⟨fun _ ⟨a, ha, _⟩ => hne a ha, fun _ => rfl⟩

end

/-! ### Trees -/

theorem self_mem_subexprs (e : MatchExpr ν ρ) : e ∈ e.subexprs := by
  cases e <;> simp [MatchExpr.subexprs]

/-- A tree is right where its operands are and its root has no defect. -/
theorem tree_step {env : Env ν ρ} {u : MatchExpr ν ρ} {l : List (MatchExpr ν ρ)}
    (hl : (∀ s ∈ l, Agrees env s) ↔ ∀ s ∈ l, ¬Defect env s)
    (hu : (∀ s ∈ l, Agrees env s) → (Agrees env u ↔ ¬Defect env u)) :
    (∀ s ∈ u :: l, Agrees env s) ↔ ∀ s ∈ u :: l, ¬Defect env s := by
  rw [List.forall_mem_cons, List.forall_mem_cons, ← hl]
  exact and_congr_left hu

theorem forest_step {env : Env ν ρ} {l m : List (MatchExpr ν ρ)}
    (hl : (∀ s ∈ l, Agrees env s) ↔ ∀ s ∈ l, ¬Defect env s)
    (hm : (∀ s ∈ m, Agrees env s) ↔ ∀ s ∈ m, ¬Defect env s) :
    (∀ s ∈ l ++ m, Agrees env s) ↔ ∀ s ∈ l ++ m, ¬Defect env s := by
  rw [List.forall_mem_append, List.forall_mem_append, hl, hm]

/-- **Matching expressions.** A well-typed expression evaluates to its meaning, it and all the trees in it,
exactly if none of these is one of the three departures. -/
theorem matchDoEval_meaning (env : Env ν ρ) (e : MatchExpr ν ρ) (h : WellTyped env e) :
    (∀ s ∈ e.subexprs, matchDoEval env s = .ok (meaning env s)) ↔ ∀ s ∈ e.subexprs, ¬Defect env s := by
  show (∀ s ∈ e.subexprs, Agrees env s) ↔ _
  have iff_of_agrees : ∀ {s : MatchExpr ν ρ}, Agrees env s → ¬Defect env s →
      (Agrees env s ↔ ¬Defect env s) := fun h1 h2 => ⟨fun _ => h2, fun _ => h1⟩
  induction e with
  | VAL v | VAR x =>
      exact tree_step (by simp) fun _ => iff_of_agrees rfl id
  | DEFINED e ih =>
      exact tree_step (ih h) fun hs => iff_of_agrees (eval_defined (hs e (self_mem_subexprs e))) id
  | NOT e ih =>
      exact tree_step (ih h.1) fun hs => iff_of_agrees (eval_not (hs e (self_mem_subexprs e)) h.2) id
  | NEG e ih => exact tree_step (ih h) fun hs => eval_neg (hs e (self_mem_subexprs e))
  | BIT_NOT e ih => exact tree_step (ih h) fun hs => eval_bit_not (hs e (self_mem_subexprs e))
  | AND e f ihe ihf =>
      refine tree_step (forest_step (ihe h.1) (ihf h.2.1)) fun hs => iff_of_agrees ?_ id
      rw [List.forall_mem_append] at hs
      exact eval_and (hs.1 e (self_mem_subexprs e)) (hs.2 f (self_mem_subexprs f)) h.2.2.1 h.2.2.2
  | OR e f ihe ihf =>
      refine tree_step (forest_step (ihe h.1) (ihf h.2.1)) fun hs => iff_of_agrees ?_ id
      rw [List.forall_mem_append] at hs
      exact eval_or (hs.1 e (self_mem_subexprs e)) (hs.2 f (self_mem_subexprs f)) h.2.2.1 h.2.2.2
  | COMPARE op e f ihe ihf =>
      refine tree_step (forest_step (ihe h.1) (ihf h.2.1)) fun hs => iff_of_agrees ?_ id
      rw [List.forall_mem_append] at hs
      exact eval_compare (hs.1 e (self_mem_subexprs e)) (hs.2 f (self_mem_subexprs f)) h.2.2
  | BINARY op e f ihe ihf =>
      refine tree_step (forest_step (ihe h.1) (ihf h.2)) fun hs => ?_
      rw [List.forall_mem_append] at hs
      exact eval_binary (hs.1 e (self_mem_subexprs e)) (hs.2 f (self_mem_subexprs f))

/-- `size + 1 == 5`, for an instruction of four bytes. -/
def sampleEnv : Env Unit Empty :=
  { var := fun _ => .INTEGER 4, regexMatch := fun r _ => r.elim, bits := fun _ => 0 }

def sampleExpr : MatchExpr Unit Empty := .COMPARE .EQ (.BINARY .ADD (.VAR ()) (.VAL (.INTEGER 1))) (.VAL (.INTEGER 5))

theorem sampleExpr_meaning : (∀ s ∈ sampleExpr.subexprs, matchDoEval sampleEnv s = .ok (meaning sampleEnv s)) ↔
    ∀ s ∈ sampleExpr.subexprs, ¬Defect sampleEnv s :=
  matchDoEval_meaning sampleEnv sampleExpr ⟨⟨trivial, trivial⟩, trivial, fun _ _ => ⟨true, rfl⟩⟩

/-- `~5` evaluates to -1. -/
theorem complement_is_wrong : ¬∀ e : MatchExpr Unit Empty,
    WellTyped sampleEnv e → matchDoEval sampleEnv e = .ok (meaning sampleEnv e) := by
  intro h
  exact absurd (h (.BIT_NOT (.VAL (.INTEGER 5))) trivial) (by decide)

end E9Tool
