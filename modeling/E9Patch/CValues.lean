import E9Patch.CExpressions

/-!
The values of C expressions and their types: a value is always a number of the type of its expression. An operator on
numbers that fit the common type of its operands is the one on 64 bits, as long as its result fits as well.
-/

namespace CLang

/-! ### Numbers of a type -/

/-- The numbers of an integer type. -/
def Fits : Bool × Nat → BitVec 64 → Prop
  | (true, bits), x => -2 ^ (bits - 1) ≤ x.toInt ∧ x.toInt < 2 ^ (bits - 1)
  | (false, bits), x => x.toNat < 2 ^ bits

instance (t : Bool × Nat) (x : BitVec 64) : Decidable (Fits t x) := by
  obtain ⟨s, bits⟩ := t
  cases s <;> unfold Fits <;> infer_instance

section
variable {s : Bool} {bits : Nat} {x y : BitVec 64}

theorem toNat_extend (hbits : bits ≤ 64) (x : BitVec 64) : (extend false bits x).toNat = x.toNat % 2 ^ bits := by
  have hle : 2 ^ bits ≤ 2 ^ 64 := Nat.pow_le_pow_right (by decide) hbits
  have hlt := Nat.mod_lt x.toNat (Nat.two_pow_pos bits)
  simp only [extend, Bool.false_eq_true, if_false, BitVec.toNat_setWidth]
  exact Nat.mod_eq_of_lt (Nat.lt_of_lt_of_le hlt hle)

theorem toInt_setWidth (hbits : bits ≤ 64) (x : BitVec 64) : (x.setWidth bits).toInt = x.toInt.bmod (2 ^ bits) := by
  rw [BitVec.toInt_setWidth, BitVec.toInt_eq_toNat_bmod, Int.bmod_bmod_of_dvd (Nat.pow_dvd_pow 2 hbits)]

theorem toInt_extend (hbits : bits ≤ 64) (x : BitVec 64) : (extend true bits x).toInt = x.toInt.bmod (2 ^ bits) := by
  rw [extend, if_pos rfl, BitVec.toInt_signExtend_of_le hbits, toInt_setWidth hbits]

/-- The numbers that a conversion leaves as they are. -/
theorem extend_eq_iff (hpos : 0 < bits) (hbits : bits ≤ 64) : extend s bits x = x ↔ Fits (s, bits) x := by
  cases s with
  | true =>
      have hpow : (2 : Int) ^ bits = 2 * 2 ^ (bits - 1) := by
        rw [← Int.pow_succ', Nat.sub_add_cancel hpos]
      rw [← BitVec.toInt_inj, toInt_extend hbits, Int.bmod_eq_iff (Nat.two_pow_pos bits)]
      push_cast
      rw [hpow, Fits]
      have h : (2 : Int) * 2 ^ (bits - 1) ∣ x.toInt - x.toInt := by simp
      omega
  | false =>
      rw [← BitVec.toNat_inj, toNat_extend hbits, Fits]
      exact ⟨fun h => h ▸ Nat.mod_lt _ (Nat.two_pow_pos bits), Nat.mod_eq_of_lt⟩

theorem setWidth_extend (hbits : bits ≤ 64) (x : BitVec 64) : (extend s bits x).setWidth bits = x.setWidth bits := by
  cases s with
  | true => rw [← BitVec.toInt_inj, toInt_setWidth hbits, toInt_extend hbits, Int.bmod_bmod, toInt_setWidth hbits]
  | false => exact (BitVec.setWidth_setWidth_of_le _ hbits).trans (BitVec.setWidth_eq _)

theorem extend_congr (h : x.setWidth bits = y.setWidth bits) : extend s bits x = extend s bits y := by
  rw [extend, extend, h]

theorem fits_extend (hpos : 0 < bits) (hbits : bits ≤ 64) (x : BitVec 64) : Fits (s, bits) (extend s bits x) :=
  (extend_eq_iff hpos hbits).mp (extend_congr (setWidth_extend hbits x))

/-- All numbers are of the widest types. -/
theorem fits_long (s : Bool) (x : BitVec 64) : Fits (s, 64) x := by
  cases s with
  | true => exact ⟨BitVec.le_toInt x, BitVec.toInt_lt⟩
  | false => exact x.isLt

theorem extend_long (s : Bool) (x : BitVec 64) : extend s 64 x = x :=
  (extend_eq_iff (by decide) (by decide)).mpr (fits_long s x)

theorem extend_int (h1 : -2 ^ 31 ≤ x.toInt) (h2 : x.toInt < 2 ^ 31) : extend true 32 x = x :=
  (extend_eq_iff (by decide) (by decide)).mpr ⟨h1, h2⟩

/-- An operator that works on the low bits alone can have its operands converted before. -/
theorem extend_op {f : BitVec 64 → BitVec 64 → BitVec 64} {g : BitVec bits → BitVec bits → BitVec bits}
    (hbits : bits ≤ 64) (hf : ∀ x y, (f x y).setWidth bits = g (x.setWidth bits) (y.setWidth bits)) (x y : BitVec 64) :
    extend s bits (f (extend s bits x) (extend s bits y)) = extend s bits (f x y) := by
  apply extend_congr
  rw [hf, hf, setWidth_extend hbits, setWidth_extend hbits]

end

/-! ### Types of numbers -/

/-- A number is one of a type. The addresses that a pointer can have are any. -/
def CType.Has : CType → BitVec 64 → Prop
  | .int s bits, x => bits ∈ [8, 16, 32, 64] ∧ Fits (s, bits) x
  | _, _ => True

section
variable {s : Bool} {bits : Nat} {x y z : BitVec 64} {t u T : CType}

theorem width_bounds (h : bits ∈ [8, 16, 32, 64]) : 0 < bits ∧ bits ≤ 64 := by
  simp only [List.mem_cons, List.not_mem_nil, or_false] at h
  omega

theorem CType.Has.width (h : (CType.int s bits).Has x) : 0 < bits ∧ bits ≤ 64 := width_bounds h.1

/-- A promotion leaves a number as it is. -/
theorem CType.Has.promote (h : (CType.int s bits).Has x) :
    (CType.int (promote s bits).1 (promote s bits).2).Has x := by
  obtain ⟨hmem, hfits⟩ := h
  have hint := BitVec.toInt_eq_toNat_cond x
  simp only [List.mem_cons, List.not_mem_nil, or_false] at hmem
  unfold CLang.promote
  split
  · refine ⟨by simp, ?_⟩
    rcases hmem with rfl | rfl | rfl | rfl <;> cases s <;> simp [Fits] at hfits ⊢ <;> omega
  · exact ⟨by simpa using hmem, hfits⟩

theorem has_ofBool (b : Bool) : (CType.int true 32).Has (ofBool b) := by
  cases b <;> exact ⟨by decide, by decide⟩

theorem intType_width {base : List UInt8} {t : Bool × Nat} (h : intType base = some t) : t.2 ∈ [8, 16, 32, 64] := by
  unfold intType at h
  split_ifs at h <;> (cases h; decide)

theorem has_extend (hbits : bits ∈ [8, 16, 32, 64]) (x : BitVec 64) : (CType.int s bits).Has (extend s bits x) :=
  ⟨hbits, fits_extend (width_bounds hbits).1 (width_bounds hbits).2 x⟩

theorem common_width {t u : Bool × Nat} (ht : t.2 ∈ [8, 16, 32, 64]) (hu : u.2 ∈ [8, 16, 32, 64]) :
    (common t u).2 ∈ [8, 16, 32, 64] := by
  unfold common
  split_ifs <;> assumption

/-- A number of the smaller type is one of the common type, if that has signs. -/
theorem extend_common {p q : Bool × Nat} (hp : (CType.int p.1 p.2).Has x) (hq : q.2 ∈ [8, 16, 32, 64])
    (hsigned : (common p q).1 = true) : extend (common p q).1 (common p q).2 x = x := by
  obtain ⟨p1, p2⟩ := p
  obtain ⟨q1, q2⟩ := q
  have hwidth := hp.width
  obtain ⟨hmem, hfits⟩ := hp
  have hint := BitVec.toInt_eq_toNat_cond x
  unfold common at hsigned ⊢
  simp only [List.mem_cons, List.not_mem_nil, or_false] at hq hmem
  split_ifs at hsigned ⊢ with heq hlt
  · obtain ⟨rfl, rfl⟩ := Bool.and_eq_true_iff.mp hsigned
    exact (extend_eq_iff hwidth.1 hwidth.2).mpr hfits
  · obtain rfl : q1 = true := hsigned
    refine (extend_eq_iff (by dsimp only; omega) (by dsimp only; omega)).mpr ?_
    rcases hmem with rfl | rfl | rfl | rfl <;> rcases hq with rfl | rfl | rfl | rfl <;> cases p1 <;>
      simp [Fits] at hfits hlt ⊢ <;> omega
  · exact (extend_eq_iff hwidth.1 hwidth.2).mpr hfits

theorem common_comm (t u : Bool × Nat) : common t u = common u t := by
  unfold common
  split_ifs with h1 h2 h3 h4 h5 <;> first | omega | rfl | rw [Bool.and_comm, h1]

/-! ### Operators -/

theorem applyInt_has {op : BinOp} (hbits : bits ∈ [8, 16, 32, 64]) (h : op.applyInt s bits x y = some z) :
    if op.isTest then (CType.int true 32).Has z else (CType.int s bits).Has z := by
  have hguard : ∀ {c : Prop} [Decidable c] {w : BitVec 64}, (if c then none else some (extend s bits w)) = some z →
      (CType.int s bits).Has z := by
    intro c _ w hz
    split at hz
    · cases hz
    · cases hz
      exact has_extend hbits w
  cases op with
  | div | mod => exact hguard h
  | mul | add | sub | and | xor | or =>
      cases h
      exact has_extend hbits _
  | lt | le | gt | ge | eq | ne =>
      cases h
      exact has_ofBool _
  | _ => cases h

theorem applyShift_has {op : BinOp} (hx : (CType.int s bits).Has x) (h : op.applyShift s bits x y = some z) :
    (CType.int s bits).Has z := by
  obtain ⟨hmem, hfits⟩ := hx
  unfold BinOp.applyShift at h
  split at h
  · cases op with
    | shl =>
        cases h
        exact has_extend hmem _
    | shr =>
        cases h
        refine ⟨hmem, ?_⟩
        cases s with
        | true =>
            -- a shift brings a number nearer to zero, or to -1
            show _ ≤ (x.sshiftRight y.toNat).toInt ∧ (x.sshiftRight y.toNat).toInt < _
            rw [BitVec.toInt_sshiftRight]
            have hlow := @Int.le_shiftRight_of_nonpos x.toInt y.toNat
            have hlow' := @Int.le_shiftRight_of_nonneg x.toInt y.toNat
            have hhigh := @Int.shiftRight_le_of_nonneg x.toInt y.toNat
            have hhigh' := @Int.shiftRight_le_of_nonpos x.toInt y.toNat
            obtain ⟨h1, h2⟩ := hfits
            omega
        | false => exact Nat.lt_of_le_of_lt (Nat.shiftRight_le x.toNat y.toNat) hfits
    | _ => cases h
  · cases h

theorem apply_int (op : BinOp) (s s' : Bool) (bits bits' : Nat) (n n' : Bool) (x y : BitVec 64) :
    op.apply (.int s bits) (.int s' bits') n n' x y =
      if op.isShift then op.applyShift (promote s bits).1 (promote s bits).2 x y
      else
        let t := common (promote s bits) (promote s' bits')
        op.applyInt t.1 t.2 (extend t.1 t.2 x) (extend t.1 t.2 y) := rfl

theorem apply_has {op : BinOp} {n n' : Bool} (hx : t.Has x) (hu : u.Has y) (htype : op.type t u = some T)
    (h : op.apply t u n n' x y = some z) : T.Has z := by
  have hnull : ∀ {c : Prop} [Decidable c] {b : Bool}, (if c then some (ofBool b) else none) = some z →
      (CType.int true 32).Has z := by
    intro c _ b hz
    split at hz
    · cases hz
      exact has_ofBool b
    · cases hz
  cases t with
  | int s bits =>
      cases u with
      | int s' bits' =>
          obtain rfl := Option.some.inj htype
          have hpx := hx.promote
          have hpy := hu.promote
          rw [apply_int] at h
          by_cases hshift : op.isShift
          · rw [if_pos hshift] at h
            rw [if_neg (by cases op <;> simp [BinOp.isShift, BinOp.isTest] at hshift ⊢), if_pos hshift]
            exact applyShift_has hpx h
          · rw [if_neg hshift] at h
            rw [if_neg hshift]
            have hz := applyInt_has (common_width hpx.1 hpy.1) h
            split_ifs at hz ⊢ <;> exact hz
      | pointer q =>
          cases op with
          | add => cases htype; trivial
          | eq | ne =>
              cases htype
              exact hnull h
          | _ => cases h
      | _ => cases h
  | pointer p =>
      cases u with
      | int s' bits' =>
          cases op with
          | add | sub => cases htype; trivial
          | eq | ne =>
              cases htype
              exact hnull h
          | _ => cases h
      | pointer q =>
          cases op with
          | sub =>
              cases htype
              exact ⟨by decide, fits_long true z⟩
          | lt | le | gt | ge | eq | ne =>
              cases htype
              exact hnull h
          | _ => cases h
      | _ => cases h
  | _ => cases h

theorem unApply_has {op : UnOp} (hx : t.Has x) (htype : op.type t = some T) (h : op.apply t x = some z) :
    T.Has z := by
  cases op with
  | minus | plus | complement =>
      cases t with
      | int s bits =>
          cases htype
          cases h
          exact has_extend hx.promote.1 _
      | _ => cases h
  | not =>
      cases t with
      | int | pointer =>
          cases htype
          cases h
          exact has_ofBool _
      | _ => cases h
  | _ => cases h

theorem load_has {env : Env} {base : List UInt8} {a : BitVec 64} (htype : UnOp.deref.type (.pointer base) = some T)
    (h : env.load base a = some z) : T.Has z := by
  unfold Env.load at h
  change (intType base).map (fun t => CType.int t.1 t.2) = some T at htype
  cases ht : intType base with
  | none =>
      rw [ht] at h
      cases h
  | some t =>
      rw [ht] at h htype
      cases h
      cases htype
      exact has_extend (intType_width ht) _

theorem convert_has {T : TypeName} (h : T.type.convert x = some z) : T.type.Has z := by
  unfold TypeName.type at h ⊢
  split_ifs at h ⊢ with hpointer hvoid
  · trivial
  · cases h
  · cases ht : intType T.base with
    | none => trivial
    | some t =>
        rw [ht] at h
        cases h
        exact has_extend (intType_width ht) _

theorem literal_has {decimal : Bool} {n : Nat} (h : literalType decimal n = some T) : T.Has (BitVec.ofNat 64 n) := by
  have hnat : (BitVec.ofNat 64 n).toNat = n % 2 ^ 64 := BitVec.toNat_ofNat n 64
  have hint := BitVec.toInt_eq_toNat_cond (BitVec.ofNat 64 n)
  unfold literalType at h
  split_ifs at h <;> cases h
  · exact ⟨by decide, show _ ≤ _ ∧ _ < _ by omega⟩
  · exact ⟨by decide, show _ < _ by omega⟩
  · exact ⟨by decide, fits_long _ _⟩
  · exact ⟨by decide, fits_long _ _⟩

end

/-! ### Expressions -/

theorem test_type {op : BinOp} {t u T : CType} (htest : op.isTest = true) (h : op.type t u = some T) :
    T = .int true 32 := by
  cases t <;> cases u <;> simp [BinOp.type, htest] at h <;> exact h.symm

/-- The value of an expression is one of its type. -/
theorem eval_has {env : Env} {e : Expr} {t : CType} {x : BitVec 64} (htype : typeOf e = some t)
    (h : eval env e = some x) : t.Has x := by
  induction e generalizing t x with
  | var y =>
      cases htype
      exact ⟨by decide, fits_long true x⟩
  | const decimal n =>
      rw [eval] at h
      rw [typeOf] at htype
      rw [htype] at h
      cases h
      exact literal_has htype
  | unary op e ih =>
      have hplain : eval env (.unary op e) = (typeOf e).bind (fun u => (eval env e).bind (op.apply u)) →
          typeOf (.unary op e) = (typeOf e).bind op.type → t.Has x := by
        intro heval htypeOf
        rw [heval] at h
        rw [htypeOf] at htype
        obtain ⟨u, hu, h⟩ := Option.bind_eq_some_iff.mp h
        obtain ⟨y, hy, hx⟩ := Option.bind_eq_some_iff.mp h
        rw [hu] at htype
        exact unApply_has (ih hu hy) htype hx
      cases op with
      | deref =>
          rw [eval] at h
          split at h
          · rename_i base hbase
            obtain ⟨a, -, hx⟩ := Option.bind_eq_some_iff.mp h
            have hderef : typeOf (.unary .deref e) = (typeOf e).bind UnOp.deref.type := by
              cases e <;> rfl
            rw [hderef, hbase] at htype
            exact load_has htype hx
          · cases h
      | address =>
          -- only what has a place has an address, and that is a pointer
          have hother : typeOf (.unary .address e) = (typeOf e).bind UnOp.address.type → t.Has x := by
            intro htypeOf
            rw [htypeOf] at htype
            obtain ⟨u, -, hu⟩ := Option.bind_eq_some_iff.mp htype
            cases hu
          cases e with
          | var y =>
              cases htype
              trivial
          | unary op' a =>
              cases op' with
              | deref =>
                  rw [eval] at h
                  rw [typeOf] at htype
                  rw [htype] at h
                  cases t with
                  | pointer base => trivial
                  | _ => cases h
              | _ => exact hother rfl
          | _ => exact hother rfl
      | _ => exact hplain rfl rfl
  | binary op l r ihl ihr =>
      have htypes : ∃ u v, typeOf l = some u ∧ typeOf r = some v ∧ op.type u v = some t := by
        rw [typeOf] at htype
        obtain ⟨u, hu, htype⟩ := Option.bind_eq_some_iff.mp htype
        obtain ⟨v, hv, htype⟩ := Option.bind_eq_some_iff.mp htype
        exact ⟨u, v, hu, hv, htype⟩
      obtain ⟨u, v, hu, hv, htype⟩ := htypes
      have hplain : eval env (.binary op l r) = ((typeOf l).bind fun t => (typeOf r).bind fun u => (eval env l).bind
          fun x => (eval env r).bind fun y =>
            op.apply t u (l.isConstant && x = 0) (r.isConstant && y = 0) x y) → t.Has x := by
        intro heval
        rw [heval, hu, hv, Option.bind_some, Option.bind_some] at h
        obtain ⟨y, hy, h⟩ := Option.bind_eq_some_iff.mp h
        obtain ⟨z, hz, hx⟩ := Option.bind_eq_some_iff.mp h
        exact apply_has (ihl hu hy) (ihr hv hz) htype hx
      cases op with
      | logicalAnd =>
          rw [eval] at h
          rw [test_type rfl htype]
          obtain ⟨y, -, h⟩ := Option.bind_eq_some_iff.mp h
          split at h
          · cases h
            exact has_ofBool false
          · obtain ⟨z, -, rfl⟩ := Option.map_eq_some_iff.mp h
            exact has_ofBool _
      | logicalOr =>
          rw [eval] at h
          rw [test_type rfl htype]
          obtain ⟨y, -, h⟩ := Option.bind_eq_some_iff.mp h
          split at h
          · obtain ⟨z, -, rfl⟩ := Option.map_eq_some_iff.mp h
            exact has_ofBool _
          · cases h
            exact has_ofBool true
      | _ => exact hplain rfl
  | cast T e ih =>
      rw [eval] at h
      rw [typeOf] at htype
      obtain ⟨y, hy, hx⟩ := Option.bind_eq_some_iff.mp h
      obtain ⟨u, hu, rfl⟩ := Option.map_eq_some_iff.mp htype
      exact convert_has hx

end CLang
