import E9Patch.CValues
import E9Patch.DecompileModel

/-!
What the operators of the decompiled text do with their operands. The operations are on 64 bits; an operator of C works
in a type that is common to its operands, which may be smaller or without a sign, and counts addresses in elements.
-/

namespace E9Patch
open CLang Numerals

/-- The operator of C that an operation is read as. -/
def cOp : E9IROp → CLang.BinOp
  | .ADD => .add
  | .SUB => .sub
  | .MUL => .mul
  | .DIV => .div
  | .MOD => .mod
  | .AND => .and
  | .OR => .or
  | .XOR => .xor
  | .SHL => .shl
  | .SHR | .SAR => .shr
  | .EQ => .eq
  | .NE => .ne
  | .LT | .LTU => .lt
  | .LE | .LEU => .le
  | .GT | .GTU => .gt
  | .GE | .GEU => .ge

/-! ### Operands that an operator suits -/

/-- The order of two numbers after their conversion to a common type. -/
def below (c : Bool × Nat) (x y : BitVec 64) : Bool :=
  if c.1 then (extend c.1 c.2 x).slt (extend c.1 c.2 y) else (extend c.1 c.2 x).ult (extend c.1 c.2 y)

/-- A number of elements of this type is as many bytes. -/
def Bytewise (base : List UInt8) (x : BitVec 64) : Prop := CLang.sizeOf base = some 1 ∨ (CLang.sizeOf base).isSome ∧ x = 0

/-- On integers of two types the operator of an operation does what the operation does: the result of the operation fits the
type in which C has it, which is the common one or, for a shift, that of the left operand; a number is shifted by less than
the width, and to the right with its sign or, for SHR, without one; and in the common type the operands have the order that
is asked for, are as different as they were, and have their quotient. A remainder is never written. -/
def SuitsInt (op : E9IROp) (t u : Bool × Nat) (x y : BitVec 64) : Prop :=
  let l := promote t.1 t.2
  let c := common l (promote u.1 u.2)
  match op with
  | .ADD => Fits c (x + y)
  | .SUB => Fits c (x - y)
  | .MUL => Fits c (x * y)
  | .AND => Fits c (x &&& y)
  | .OR => Fits c (x ||| y)
  | .XOR => Fits c (x ^^^ y)
  | .DIV => if c.1 then Fits c (x.sdiv y) else extend c.1 c.2 x / extend c.1 c.2 y = x.sdiv y
  | .MOD => False
  | .SHL => y.toNat < l.2 ∧ Fits l (x <<< y.toNat)
  | .SHR => y.toNat < l.2 ∧ (l.1 = true → 0 ≤ x.toInt ∨ y = 0)
  | .SAR => y.toNat < l.2 ∧ (l.1 = false → 0 ≤ x.toInt ∨ y = 0)
  | .EQ | .NE => extend c.1 c.2 x = extend c.1 c.2 y → x = y
  | .LT | .GE => below c x y = x.slt y
  | .GT | .LE => below c y x = y.slt x
  | .LTU | .GEU => below c x y = x.ult y
  | .GTU | .LEU => below c y x = y.ult x

/-- The same of operands of any types: addresses can be moved by bytes, and compared with those of the same type. `null`
and `null'` tell that an operand is a null pointer constant. -/
def Suits (op : E9IROp) : CType → CType → Bool → Bool → BitVec 64 → BitVec 64 → Prop
  | .int s b, .int s' b', _, _, x, y => SuitsInt op (s, b) (s', b') x y
  | .pointer p, .int _ _, _, null', _, y =>
    match op with
    | .ADD | .SUB => Bytewise p y
    | .EQ | .NE => null' = true
    | _ => False
  | .int _ _, .pointer p, null, _, x, _ =>
    match op with
    | .ADD => Bytewise p x
    | .EQ | .NE => null = true
    | _ => False
  | .pointer p, .pointer q, _, _, x, y =>
    match op with
    | .SUB => p = q ∧ Bytewise p (x - y)
    | .LT | .LE | .GT | .GE => p = q ∧ (0 ≤ x.toInt ↔ 0 ≤ y.toInt)
    | .LTU | .LEU | .GTU | .GEU => p = q
    | .EQ | .NE => p = q ∨ p = ascii "void" ∨ q = ascii "void"
    | _ => False
  | _, _, _, _, _, _ => False

/-- The result of a sign or a complement fits the type that the operand is promoted to. -/
def SuitsSign : CType → BitVec 64 → Prop
  | .int s b, z => Fits (promote s b) z
  | _, _ => False

/-! ### Integers -/

theorem ofBool_inj {a b : Bool} : ofBool a = ofBool b ↔ a = b := by
  cases a <;> cases b <;> decide

section
variable {c t u : Bool × Nat} {x y : BitVec 64}

/-- Where the low bits of the result are those of the operands, it need only fit. -/
theorem low_iff {f : BitVec 64 → BitVec 64 → BitVec 64}
    (hf : ∀ b ≤ 64, ∃ g : BitVec b → BitVec b → BitVec b, ∀ x y, (f x y).setWidth b = g (x.setWidth b) (y.setWidth b))
    (hpos : 0 < c.2) (hc : c.2 ≤ 64) (x y : BitVec 64) :
    some (extend c.1 c.2 (f (extend c.1 c.2 x) (extend c.1 c.2 y))) = some (f x y) ↔ Fits c (f x y) := by
  obtain ⟨g, hg⟩ := hf c.2 hc
  rw [Option.some_inj, extend_op hc hg]
  exact extend_eq_iff hpos hc

theorem sshiftRight_eq_iff (x y : BitVec 64) : x.sshiftRight y.toNat = x >>> y.toNat ↔ 0 ≤ x.toInt ∨ y = 0 := by
  by_cases hy : y = 0
  · subst hy
    simp
  have hn : y.toNat ≠ 0 := fun h => hy (BitVec.toNat_inj.mp h)
  cases hmsb : x.msb with
  | false =>
      refine iff_of_true (BitVec.sshiftRight_eq_of_msb_false hmsb) (Or.inl ?_)
      exact BitVec.toInt_nonneg_of_msb_false hmsb
  | true =>
      refine iff_of_false (fun heq => ?_) (fun h => ?_)
      · have := congrArg BitVec.msb heq
        rw [BitVec.msb_sshiftRight, BitVec.msb_ushiftRight, hmsb] at this
        simp [hn] at this
      · have := BitVec.toInt_neg_of_msb_true hmsb
        rcases h with h | h
        · omega
        · exact hy h

theorem slt_eq_ult_iff (x y : BitVec 64) : x.slt y = x.ult y ↔ (0 ≤ x.toInt ↔ 0 ≤ y.toInt) := by
  have hx := BitVec.toInt_eq_toNat_cond x
  have hy := BitVec.toInt_eq_toNat_cond y
  have hxlt := x.isLt
  have hylt := y.isLt
  rw [BitVec.slt_eq_decide, BitVec.ult_eq_decide, decide_eq_decide]
  split_ifs at hx hy <;> omega

/-- A number that is not zero is none in a common type without signs. -/
theorem extend_ne_zero (hy : (CType.int u.1 u.2).Has y) (hle : u.2 ≤ c.2) (hc : c.2 ∈ [8, 16, 32, 64]) (hne : y ≠ 0) :
    extend false c.2 y ≠ 0 := by
  obtain ⟨u1, u2⟩ := u
  obtain ⟨hmem, hfits⟩ := hy
  have hint := BitVec.toInt_eq_toNat_cond y
  have hlt := y.isLt
  have hnat : y.toNat ≠ 0 := fun h => hne (BitVec.toNat_inj.mp h)
  intro hzero
  have hmod : y.toNat % 2 ^ c.2 = 0 := by
    rw [← toNat_extend (width_bounds hc).2, hzero]
    rfl
  simp only [List.mem_cons, List.not_mem_nil, or_false] at hc hmem
  dsimp only at hle hfits
  rcases hmem with rfl | rfl | rfl | rfl <;> rcases hc with h | h | h | h <;> rw [h] at hmod hle <;> cases u1 <;>
    simp [Fits] at hfits <;> omega

theorem common_le (t u : Bool × Nat) : t.2 ≤ (common t u).2 ∧ u.2 ≤ (common t u).2 := by
  unfold common
  split_ifs <;> constructor <;> omega

theorem fits_div (hpos : 0 < c.2) (hc : c.2 ≤ 64) (hsigned : c.1 = false) (x y : BitVec 64) :
    extend c.1 c.2 (extend c.1 c.2 x / extend c.1 c.2 y) = extend c.1 c.2 x / extend c.1 c.2 y := by
  obtain ⟨c1, c2⟩ := c
  obtain rfl : c1 = false := hsigned
  have hfits : Fits (false, c2) (extend false c2 x) := fits_extend hpos hc x
  refine (extend_eq_iff hpos hc).mpr (Nat.lt_of_le_of_lt ?_ hfits)
  rw [BitVec.toNat_udiv]
  exact Nat.div_le_self ..

theorem div_iff {z : BitVec 64} (hpos : 0 < c.2) (hc : c.2 ≤ 64) (hsx : c.1 = true → extend c.1 c.2 x = x)
    (hsy : c.1 = true → extend c.1 c.2 y = y) (hne : c.1 = false → y ≠ 0 → extend c.1 c.2 y ≠ 0)
    (hz : E9IROp.DIV.apply x y = some z) :
    CLang.BinOp.div.applyInt c.1 c.2 (extend c.1 c.2 x) (extend c.1 c.2 y) = some z ↔
      if c.1 then Fits c (x.sdiv y) else extend c.1 c.2 x / extend c.1 c.2 y = x.sdiv y := by
  rw [E9IROp.apply] at hz
  split at hz
  · cases hz
  rename_i hy
  cases hz
  unfold BinOp.applyInt
  dsimp only
  cases hsigned : c.1 with
  | true =>
      rw [hsigned] at hsx hsy
      rw [hsx rfl, hsy rfl, if_neg hy, if_pos rfl, if_pos rfl, Option.some_inj, extend_eq_iff hpos hc, ← hsigned]
  | false =>
      have hdiv := fits_div hpos hc hsigned x y
      rw [hsigned] at hne hdiv
      rw [if_neg (hne rfl hy), if_neg (by decide), if_neg (by decide), hdiv, Option.some_inj]

/-- The other order tests are those of the order turned round. -/
theorem not_below (c : Bool × Nat) (x y : BitVec 64) : (!below c x y) =
    if c.1 then (extend c.1 c.2 y).sle (extend c.1 c.2 x) else (extend c.1 c.2 y).ule (extend c.1 c.2 x) := by
  unfold below
  split
  · exact BitVec.sle_eq_not_slt.symm
  · exact (BitVec.ule_eq_not_ult _ _).symm

theorem test_iff {a b : Bool} : some (ofBool a) = some (ofBool b) ↔ a = b := by
  rw [Option.some_inj, ofBool_inj]

theorem not_test_iff {a a' b b' : Bool} (ha : a = !a') (hb : b = !b') : some (ofBool a) = some (ofBool b) ↔ a' = b' := by
  rw [test_iff, ha, hb, Bool.not_inj_iff]

/-- An operator on integers has the result of its operation just when it suits the operands. -/
theorem suits_int {op : E9IROp} {n n' : Bool} {z : BitVec 64} (hx : (CType.int t.1 t.2).Has x)
    (hy : (CType.int u.1 u.2).Has y) (hop : op ≠ .MOD) (hz : op.apply x y = some z) :
    (cOp op).apply (.int t.1 t.2) (.int u.1 u.2) n n' x y = some z ↔ SuitsInt op t u x y := by
  have hpx := hx.promote
  have hpy := hy.promote
  have hmem := common_width hpx.1 hpy.1
  have hle := common_le (promote t.1 t.2) (promote u.1 u.2)
  have hsx := extend_common hpx hpy.1
  have hsy := extend_common hpy hpx.1
  rw [common_comm] at hsy
  rw [apply_int]
  unfold SuitsInt
  dsimp only
  generalize common (promote t.1 t.2) (promote u.1 u.2) = c at hmem hle hsx hsy ⊢
  generalize promote t.1 t.2 = l at hpx hle ⊢
  have hwidth := width_bounds hmem
  have hlow : ∀ f : BitVec 64 → BitVec 64 → BitVec 64,
      (∀ b ≤ 64, ∃ g : BitVec b → BitVec b → BitVec b, ∀ x y, (f x y).setWidth b = g (x.setWidth b) (y.setWidth b)) →
      (some (extend c.1 c.2 (f (extend c.1 c.2 x) (extend c.1 c.2 y))) = some (f x y) ↔ Fits c (f x y)) :=
    fun f hf => low_iff hf hwidth.1 hwidth.2 x y
  have hkeeps : ((extend c.1 c.2 x = extend c.1 c.2 y) ↔ (x = y)) ↔ (extend c.1 c.2 x = extend c.1 c.2 y → x = y) :=
    ⟨Iff.mp, fun h => ⟨h, fun heq => by rw [heq]⟩⟩
  cases op with
  | ADD =>
      cases hz
      exact hlow (· + ·) fun b hb => ⟨(· + ·), fun x y => BitVec.setWidth_add x y hb⟩
  | SUB =>
      cases hz
      refine hlow (· - ·) fun b hb => ⟨(· - ·), fun x y => ?_⟩
      rw [BitVec.sub_eq_add_neg, BitVec.setWidth_add _ _ hb, BitVec.setWidth_neg_of_le hb, ← BitVec.sub_eq_add_neg]
  | MUL =>
      cases hz
      exact hlow (· * ·) fun b hb => ⟨(· * ·), fun x y => BitVec.setWidth_mul x y hb⟩
  | AND =>
      cases hz
      exact hlow (· &&& ·) fun b hb => ⟨(· &&& ·), fun x y => BitVec.setWidth_and⟩
  | OR =>
      cases hz
      exact hlow (· ||| ·) fun b hb => ⟨(· ||| ·), fun x y => BitVec.setWidth_or⟩
  | XOR =>
      cases hz
      exact hlow (· ^^^ ·) fun b hb => ⟨(· ^^^ ·), fun x y => BitVec.setWidth_xor⟩
  | DIV => exact div_iff hwidth.1 hwidth.2 hsx hsy (fun hsigned hne => hsigned ▸ extend_ne_zero hpy hle.2 hmem hne) hz
  | MOD => exact absurd rfl hop
  | SHL =>
      obtain ⟨-, hz⟩ := Option.ite_none_right_eq_some.mp hz
      cases hz
      change BinOp.shl.applyShift l.1 l.2 x y = _ ↔ _
      unfold BinOp.applyShift
      rw [Option.ite_none_right_eq_some, Option.some_inj, extend_eq_iff hpx.width.1 hpx.width.2]
  | SHR =>
      obtain ⟨-, hz⟩ := Option.ite_none_right_eq_some.mp hz
      cases hz
      change BinOp.shr.applyShift l.1 l.2 x y = _ ↔ _
      unfold BinOp.applyShift
      rw [Option.ite_none_right_eq_some, Option.some_inj]
      refine and_congr_right fun _ => ?_
      cases l.1 with
      | true => simpa using sshiftRight_eq_iff x y
      | false => simp
  | SAR =>
      obtain ⟨-, hz⟩ := Option.ite_none_right_eq_some.mp hz
      cases hz
      change BinOp.shr.applyShift l.1 l.2 x y = _ ↔ _
      unfold BinOp.applyShift
      rw [Option.ite_none_right_eq_some, Option.some_inj]
      refine and_congr_right fun _ => ?_
      cases l.1 with
      | true => simp
      | false => simpa using eq_comm.trans (sshiftRight_eq_iff x y)
  | EQ =>
      cases hz
      exact test_iff.trans (decide_eq_decide.trans hkeeps)
  | NE =>
      cases hz
      exact test_iff.trans (decide_eq_decide.trans (not_iff_not.trans hkeeps))
  | LT | GT | LTU | GTU =>
      cases hz
      exact test_iff
  | LE | GE =>
      cases hz
      exact not_test_iff (not_below c _ _).symm BitVec.sle_eq_not_slt
  | LEU | GEU =>
      cases hz
      exact not_test_iff (not_below c _ _).symm (BitVec.ule_eq_not_ult _ _)

end

/-- The operations that go by numbers without signs. -/
def unsignedOps : List E9IROp := [.SHR, .LTU, .LEU, .GTU, .GEU]

/-- Numbers of 64 bits with a sign, as the variables are, suit all other operators. -/
theorem suits_long {op : E9IROp} {x y z : BitVec 64} (n n' : Bool) (hop : op ≠ .MOD) (hops : op ∉ unsignedOps)
    (hz : op.apply x y = some z) : Suits op (.int true 64) (.int true 64) n n' x y := by
  have hlong := extend_long true
  cases op with
  | ADD | SUB | MUL | AND | OR | XOR | DIV => exact fits_long true _
  | SHL =>
      obtain ⟨hlt, -⟩ := Option.ite_none_right_eq_some.mp hz
      exact ⟨hlt, fits_long true _⟩
  | SAR =>
      obtain ⟨hlt, -⟩ := Option.ite_none_right_eq_some.mp hz
      exact ⟨hlt, nofun⟩
  | EQ | NE =>
      intro heq
      exact (hlong x).symm.trans (heq.trans (hlong y))
  | LT | LE | GT | GE => exact congrArg₂ BitVec.slt (hlong _) (hlong _)
  | MOD => exact absurd rfl hop
  | _ => exact absurd (by decide) hops

/-! ### Addresses -/

theorem sizeOf_cases {base : List UInt8} {k : BitVec 64} (h : CLang.sizeOf base = some k) :
    k = 1 ∨ k = 2 ∨ k = 4 ∨ k = 8 := by
  obtain ⟨t, ht, rfl⟩ := Option.map_eq_some_iff.mp h
  have hwidth := intType_width ht
  simp only [List.mem_cons, List.not_mem_nil, or_false] at hwidth
  rcases hwidth with h | h | h | h <;> rw [h] <;> decide

section
variable {base : List UInt8} {x y z : BitVec 64}

/-- A number that is a multiple of itself by an even one is zero. -/
theorem mul_eq_self {k : BitVec 64} (hodd : (2 ^ 64).Coprime (k.toNat - 1)) : k * y = y ↔ y = 0 := by
  constructor
  · intro h
    have hmod : k.toNat * y.toNat % 2 ^ 64 = y.toNat := by
      rw [← BitVec.toNat_mul, h]
    have hdiv := Nat.div_add_mod (k.toNat * y.toNat) (2 ^ 64)
    rw [hmod] at hdiv
    have hdvd : 2 ^ 64 ∣ (k.toNat - 1) * y.toNat := by
      refine ⟨k.toNat * y.toNat / 2 ^ 64, ?_⟩
      rw [Nat.sub_mul, Nat.one_mul, ← hdiv, Nat.add_sub_cancel, hdiv]
    exact BitVec.toNat_inj.mp (Nat.eq_zero_of_dvd_of_lt (hodd.dvd_of_dvd_mul_left hdvd) y.isLt)
  · intro h
    rw [h]
    exact BitVec.mul_zero

theorem bytewise_iff {k : BitVec 64} (hsize : CLang.sizeOf base = some k) (hone : k ≠ 1) : Bytewise base x ↔ x = 0 := by
  unfold Bytewise
  rw [hsize, Option.some_inj, or_iff_right hone, and_iff_right Option.isSome_some]

/-- Scaled by its size, a number is left as it is. -/
theorem bytewise_mul {f : BitVec 64 → BitVec 64} (hf : Function.Injective f) :
    (CLang.sizeOf base).map (fun k => f (k * x)) = some (f x) ↔ Bytewise base x := by
  cases hsize : CLang.sizeOf base with
  | none => simp [Bytewise, hsize]
  | some k =>
      rw [Option.map_some, Option.some_inj, hf.eq_iff]
      rcases sizeOf_cases hsize with rfl | hk
      · simp [Bytewise, hsize]
      · have hodd : (2 ^ 64).Coprime (k.toNat - 1) := by
          rcases hk with rfl | rfl | rfl <;> decide
        have hone : k ≠ 1 := by
          rcases hk with rfl | rfl | rfl <;> decide
        exact (mul_eq_self hodd).trans (bytewise_iff hsize hone).symm

/-- A quotient by more than one is nearer to zero. -/
theorem sdiv_eq_self {k : BitVec 64} (hk : 2 ≤ k.toInt) : x.sdiv k = x ↔ x = 0 := by
  have hone : k ≠ -1#64 := fun h => by
    rw [h] at hk
    exact absurd hk (by decide)
  rw [← BitVec.toInt_inj, BitVec.toInt_sdiv_of_ne_or_ne x k (Or.inr hone), ← BitVec.toInt_inj (y := 0)]
  constructor
  · intro h
    have habs := congrArg Int.natAbs h
    rw [Int.natAbs_tdiv] at habs
    rcases Nat.eq_zero_or_pos x.toInt.natAbs with hzero | hpos
    · exact Int.natAbs_eq_zero.mp hzero
    · have := Nat.div_lt_self hpos (show 1 < k.toInt.natAbs by omega)
      exact absurd habs (Nat.ne_of_lt this)
  · intro h
    rw [h]
    exact Int.zero_tdiv _

theorem bytewise_div : (CLang.sizeOf base).map (fun k => x.sdiv k) = some x ↔ Bytewise base x := by
  cases hsize : CLang.sizeOf base with
  | none => simp [Bytewise, hsize]
  | some k =>
      rw [Option.map_some, Option.some_inj]
      rcases sizeOf_cases hsize with rfl | hk
      · simp [Bytewise, hsize]
      · have hint : 2 ≤ k.toInt := by
          rcases hk with rfl | rfl | rfl <;> decide
        have hone : k ≠ 1 := by
          rcases hk with rfl | rfl | rfl <;> decide
        exact (sdiv_eq_self hint).trans (bytewise_iff hsize hone).symm

/-- The order of addresses is that of numbers without signs. -/
theorem order_iff {a b : Bool} (ha : a = x.ult y) (hb : b = x.slt y) :
    some (ofBool a) = some (ofBool b) ↔ (0 ≤ x.toInt ↔ 0 ≤ y.toInt) := by
  rw [test_iff, ha, hb, eq_comm, slt_eq_ult_iff]

theorem not_order_iff {a b : Bool} (ha : a = !x.ult y) (hb : b = !x.slt y) :
    some (ofBool a) = some (ofBool b) ↔ (0 ≤ x.toInt ↔ 0 ≤ y.toInt) := by
  rw [not_test_iff ha hb, eq_comm, slt_eq_ult_iff]

theorem suits_pointer {op : E9IROp} {p q : List UInt8} {n n' : Bool} (hz : op.apply x y = some z) :
    (cOp op).apply (.pointer p) (.pointer q) n n' x y = some z ↔ Suits op (.pointer p) (.pointer q) n n' x y := by
  cases op with
  | SUB =>
      cases hz
      exact Option.ite_none_right_eq_some.trans (and_congr_right fun _ => bytewise_div)
  | LT =>
      cases hz
      exact Option.ite_none_right_eq_some.trans (and_congr_right fun _ => order_iff rfl rfl)
  | GT =>
      cases hz
      exact Option.ite_none_right_eq_some.trans (and_congr_right fun _ => (order_iff rfl rfl).trans Iff.comm)
  | LE =>
      cases hz
      exact Option.ite_none_right_eq_some.trans
        (and_congr_right fun _ => (not_order_iff (BitVec.ule_eq_not_ult x y) BitVec.sle_eq_not_slt).trans Iff.comm)
  | GE =>
      cases hz
      exact Option.ite_none_right_eq_some.trans
        (and_congr_right fun _ => not_order_iff (BitVec.ule_eq_not_ult y x) BitVec.sle_eq_not_slt)
  | LTU | LEU | GTU | GEU | EQ | NE =>
      cases hz
      exact Option.ite_none_right_eq_some.trans (and_iff_left rfl)
  | _ => exact iff_of_false nofun id

/-- An operator has the result of its operation just when it suits the operands. -/
theorem suits_iff {op : E9IROp} {t u : CType} {n n' : Bool} (hx : t.Has x) (hy : u.Has y) (hop : op ≠ .MOD)
    (hz : op.apply x y = some z) : (cOp op).apply t u n n' x y = some z ↔ Suits op t u n n' x y := by
  cases t with
  | int s bits =>
      cases u with
      | int s' bits' => exact suits_int (t := (s, bits)) (u := (s', bits')) hx hy hop hz
      | pointer q =>
          cases op with
          | ADD =>
              cases hz
              exact bytewise_mul (f := (· + y)) fun a b h => by simpa using h
          | EQ | NE =>
              cases hz
              exact Option.ite_none_right_eq_some.trans (and_iff_left rfl)
          | _ => exact iff_of_false nofun id
      | _ => exact iff_of_false nofun id
  | pointer p =>
      cases u with
      | int s' bits' =>
          cases op with
          | ADD =>
              cases hz
              exact bytewise_mul (f := (x + ·)) fun a b h => by simpa using h
          | SUB =>
              cases hz
              exact bytewise_mul (f := (x - ·)) fun a b h => by simpa using h
          | EQ | NE =>
              cases hz
              exact Option.ite_none_right_eq_some.trans (and_iff_left rfl)
          | _ => exact iff_of_false nofun id
      | pointer q => exact suits_pointer hz
      | _ => exact iff_of_false nofun id
  | _ => exact iff_of_false nofun id

theorem not_suits_mod {t u : CType} {n n' : Bool} : ¬Suits .MOD t u n n' x y := by
  cases t <;> cases u <;> exact id

theorem suits_minus {t : CType} (hx : t.Has x) : UnOp.minus.apply t x = some (-x) ↔ SuitsSign t (-x) := by
  cases t with
  | int s bits =>
      have hwidth := hx.promote.width
      exact Option.some_inj.trans (extend_eq_iff hwidth.1 hwidth.2)
  | _ => exact iff_of_false nofun id

theorem suits_complement {t : CType} (hx : t.Has x) :
    UnOp.complement.apply t x = some (~~~x) ↔ SuitsSign t (~~~x) := by
  cases t with
  | int s bits =>
      have hwidth := hx.promote.width
      exact Option.some_inj.trans (extend_eq_iff hwidth.1 hwidth.2)
  | _ => exact iff_of_false nofun id

end

end E9Patch
