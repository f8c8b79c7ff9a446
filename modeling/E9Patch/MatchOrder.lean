import Mathlib.Combinatorics.Colex
import Mathlib.Data.Prod.Lex
import Mathlib.Data.Sum.Order
import E9Patch.MatchModel

/-!
The order of match values. Every value has a key in a linear order: a value that is no set its type and
its fields, and a set its elements. The order of sets is that of the colexicographic order upside down: of
two sets the larger has the least element in which they differ.
-/

namespace E9Tool
open Finset.Colex

variable {ρ ν : Type}

/-- No regular expression. -/
def Atom.Plain : Atom ρ → Prop
  | .REGEX _ => False
  | _ => True

/-- Neither undefined nor a regular expression, and without one. -/
def MatchVal.Comparable : MatchVal ρ → Prop
  | .UNDEFINED => False
  | .atom a => a.Plain
  | .SET s => ∀ a ∈ s, a.Plain

/-- The two denote the same value. A list of elements denotes the set of them. -/
def MatchVal.Same : MatchVal ρ → MatchVal ρ → Prop
  | .UNDEFINED, .UNDEFINED => True
  | .atom a, .atom b => a = b
  | .SET s, .SET t => ∀ a, a ∈ s ↔ a ∈ t
  | _, _ => False

/-- Membership in a set, and of the elements of one set in another. -/
def MatchVal.In : MatchVal ρ → MatchVal ρ → Prop
  | .atom a, .SET s => a ∈ s
  | .SET t, .SET s => ∀ a ∈ t, a ∈ s
  | _, _ => False

/-! ### Orders -/

/-- `order` in a linear order. -/
def keyOrder {α : Type} [LinearOrder α] (x y : α) : Int := order x y

section
variable {α β : Type} [LinearOrder α] [LinearOrder β]

theorem order_eq_keyOrder {γ : Type} [LT γ] [DecidableLT γ] {x y : γ} {u v : α} (hlt : x < y ↔ u < v)
    (hgt : y < x ↔ v < u) : order x y = keyOrder u v := by
  simp only [keyOrder, order, hlt, hgt]

theorem keyOrder_self (x : α) : keyOrder x x = 0 := by
  simp [keyOrder, order]

theorem keyOrder_of_lt {x y : α} (h : x < y) : keyOrder x y = -1 := by
  rw [keyOrder, order, if_neg h.not_gt, if_pos h]

theorem keyOrder_of_gt {x y : α} (h : y < x) : keyOrder x y = 1 := by
  rw [keyOrder, order, if_pos h]

theorem keyOrder_swap (x y : α) : keyOrder y x = -keyOrder x y := by
  rcases lt_trichotomy x y with h | rfl | h
  · rw [keyOrder_of_lt h, keyOrder_of_gt h]
    rfl
  · rw [keyOrder_self]
    rfl
  · rw [keyOrder_of_lt h, keyOrder_of_gt h]

theorem keyOrder_neg {x y : α} : keyOrder x y < 0 ↔ x < y := by
  rcases lt_trichotomy x y with h | rfl | h
  · simp [keyOrder_of_lt h, h]
  · simp [keyOrder_self]
  · simp [keyOrder_of_gt h, h.not_gt]

theorem keyOrder_nonpos {x y : α} : keyOrder x y ≤ 0 ↔ x ≤ y := by
  rcases lt_trichotomy x y with h | rfl | h
  · simp [keyOrder_of_lt h, h.le]
  · simp [keyOrder_self]
  · simp [keyOrder_of_gt h, h]

theorem keyOrder_zero {x y : α} : keyOrder x y = 0 ↔ x = y := by
  rcases lt_trichotomy x y with h | rfl | h
  · simp [keyOrder_of_lt h, h.ne]
  · simp [keyOrder_self]
  · simp [keyOrder_of_gt h, h.ne']

theorem keyOrder_congr {x y : α} {u v : β} (hlt : x < y ↔ u < v) (hgt : y < x ↔ v < u) :
    keyOrder x y = keyOrder u v := order_eq_keyOrder hlt hgt

theorem keyOrder_cons (x y : α) (xs ys : List α) :
    keyOrder (x :: xs) (y :: ys) = if y ≠ x then keyOrder x y else keyOrder xs ys := by
  by_cases h : y = x
  · subst h
    rw [if_neg (by simp)]
    exact keyOrder_congr List.cons_lt_cons_self List.cons_lt_cons_self
  · rw [if_pos h]
    refine keyOrder_congr ?_ ?_
    · simp [List.cons_lt_cons_iff, Ne.symm h]
    · simp [List.cons_lt_cons_iff, h]

theorem keyOrder_single (x y : α) : keyOrder [x] [y] = keyOrder x y := by
  rw [keyOrder_cons]
  split
  · rfl
  · rename_i h
    rw [not_not.mp h, keyOrder_self, keyOrder_self]

theorem keyOrder_lex (x y : α) (u v : β) :
    keyOrder (toLex (x, u)) (toLex (y, v)) = if y < x then 1 else if y > x then -1 else keyOrder u v := by
  rcases lt_trichotomy x y with h | rfl | h
  · rw [if_neg h.not_gt, if_pos h]
    exact keyOrder_of_lt (Prod.Lex.toLex_lt_toLex.mpr (Or.inl h))
  · rw [if_neg (lt_irrefl x), if_neg (lt_irrefl x)]
    refine keyOrder_congr ?_ ?_ <;> simp [Prod.Lex.toLex_lt_toLex]
  · rw [if_pos h]
    exact keyOrder_of_gt (Prod.Lex.toLex_lt_toLex.mpr (Or.inl h))

end

/-! ### Keys -/

/-- The type of a value that is no set, and its fields in the order they are compared in. -/
abbrev AtomKey := ℕ ×ₗ List ℤ

def MemOp.fields (m : MemOp) : List ℤ :=
  [m.seg.toNat, m.base.toNat, m.index.toNat, m.scale.toNat, m.disp, m.size.toNat]

def Atom.fields : Atom ρ → List ℤ
  | .NIL | .REGEX _ => []
  | .INTEGER i => [i]
  | .OPERAND op => [op]
  | .ACCESS access => [(access : ℤ)]
  | .REGISTER reg => [(reg.toNat : ℤ)]
  | .MEMORY mem => mem.fields
  | .STRING str => str.map fun c => (c.toNat : ℤ)

def Atom.key (a : Atom ρ) : AtomKey := toLex (a.type, a.fields)

theorem byte_lt {x y : UInt8} : x < y ↔ (x.toNat : ℤ) < y.toNat :=
  UInt8.lt_iff_toNat_lt.trans Int.ofNat_lt.symm

theorem byte_inj {x y : UInt8} : (x.toNat : ℤ) = y.toNat ↔ x = y :=
  Int.ofNat_inj.trans UInt8.toNat_inj

theorem order_byte (x y : UInt8) : order x y = keyOrder (x.toNat : ℤ) y.toNat := order_eq_keyOrder byte_lt byte_lt

theorem MemOp.compare_fields (m n : MemOp) : m.compare n = keyOrder m.fields n.fields := by
  unfold MemOp.compare MemOp.fields
  simp only [keyOrder_cons, order_byte, ne_eq, byte_inj, keyOrder_self]
  rfl

theorem bytes_lt (s t : List UInt8) : s < t ↔ (s.map fun c => (c.toNat : ℤ)) < t.map fun c => (c.toNat : ℤ) := by
  induction s generalizing t with
  | nil => cases t <;> simp
  | cons x xs ih =>
      cases t with
      | nil => simp
      | cons y ys => simp only [List.map_cons, List.cons_lt_cons_iff, byte_lt, byte_inj, ih]

/-- The comparison of two values that are no sets is that of their keys. -/
theorem Atom.compare_key {a b : Atom ρ} (ha : a.Plain) (hb : b.Plain) : a.compare b = .ok (keyOrder a.key b.key) := by
  have hkey : keyOrder a.key b.key =
      if b.type < a.type then 1 else if b.type > a.type then -1 else keyOrder a.fields b.fields := keyOrder_lex _ _ _ _
  rw [hkey]
  cases a <;> cases b <;> first | exact ha.elim | exact hb.elim | rfl | skip
  case INTEGER.INTEGER i j => exact congrArg _ (keyOrder_single i j).symm
  case OPERAND.OPERAND o p => exact congrArg _ (keyOrder_single o p).symm
  case ACCESS.ACCESS a b =>
    exact congrArg _ ((order_eq_keyOrder Int.ofNat_lt.symm Int.ofNat_lt.symm).trans (keyOrder_single (a : ℤ) b).symm)
  case REGISTER.REGISTER r q =>
    exact congrArg _ ((order_byte r q).trans (keyOrder_single (r.toNat : ℤ) q.toNat).symm)
  case MEMORY.MEMORY m n => exact congrArg _ (MemOp.compare_fields m n)
  case STRING.STRING s t => exact congrArg _ (order_eq_keyOrder (bytes_lt s t) (bytes_lt t s))

/-- A value that is no set, and has a key of its own. -/
theorem Atom.key_inj {a b : Atom ρ} (ha : a.Plain) (hb : b.Plain) : a.key = b.key ↔ a = b := by
  refine ⟨fun h => ?_, fun h => h ▸ rfl⟩
  have htype : a.type = b.type := congrArg (fun k => (ofLex k).1) h
  have hfields : a.fields = b.fields := congrArg (fun k => (ofLex k).2) h
  cases a <;> cases b <;> first | exact ha.elim | exact hb.elim | (exfalso; simp [Atom.type] at htype; done) | skip
  case NIL.NIL => rfl
  case INTEGER.INTEGER => simpa [Atom.fields] using hfields
  case OPERAND.OPERAND => simpa [Atom.fields] using hfields
  case ACCESS.ACCESS => simpa [Atom.fields] using hfields
  case REGISTER.REGISTER => exact congrArg _ (byte_inj.mp (List.cons.inj hfields).1)
  case MEMORY.MEMORY m n =>
    obtain ⟨disp, seg, base, index, scale, size⟩ := m
    obtain ⟨disp', seg', base', index', scale', size'⟩ := n
    simp only [Atom.fields, MemOp.fields, List.cons.injEq, byte_inj, and_true] at hfields
    obtain ⟨rfl, rfl, rfl, rfl, rfl, rfl⟩ := hfields
    rfl
  case STRING.STRING s t =>
    have hinj : Function.Injective fun c : UInt8 => (c.toNat : ℤ) := fun x y hxy => byte_inj.mp hxy
    exact congrArg _ (hinj.list_map hfields)

/-! ### Sets -/

section
variable {env : Env ν ρ} {a b : Atom ρ} {s t : List (Atom ρ)}

theorem equal_plain (env : Env ν ρ) (ha : a.Plain) (hb : b.Plain) :
    a.equal env b = .ok (keyOrder a.key b.key == 0) := by
  have hcompare : a.equal env b = (a.compare b).map (· == 0) := by
    cases a <;> cases b <;> first | exact ha.elim | exact hb.elim | rfl
  rw [hcompare, Atom.compare_key ha hb]
  rfl

theorem isMember_plain (env : Env ν ρ) (ha : a.Plain) (hs : ∀ b ∈ s, b.Plain) :
    ∃ found, isMember env a s = .ok found ∧ (found = true ↔ a ∈ s) := by
  unfold isMember
  induction s with
  | nil => exact ⟨false, rfl, by simp⟩
  | cons b s ih =>
      obtain ⟨hb, hs⟩ := List.forall_mem_cons.mp hs
      rw [List.anyM_cons, equal_plain env ha hb]
      by_cases hab : a = b
      · refine ⟨true, ?_, by simp [hab]⟩
        subst hab
        rw [keyOrder_self]
        rfl
      · obtain ⟨found, hfound, hiff⟩ := ih hs
        refine ⟨found, ?_, by rw [hiff]; simp [hab]⟩
        have hne : (keyOrder a.key b.key == 0) = false := by
          rw [beq_eq_false_iff_ne, ne_eq, keyOrder_zero, Atom.key_inj ha hb]
          exact hab
        rw [hne]
        exact hfound

theorem isSubset_plain (env : Env ν ρ) (hs : ∀ a ∈ s, a.Plain) (ht : ∀ a ∈ t, a.Plain) :
    ∃ found, isSubset env s t = .ok found ∧ (found = true ↔ ∀ a ∈ s, a ∈ t) := by
  unfold isSubset
  induction s with
  | nil => exact ⟨true, rfl, by simp⟩
  | cons a s ih =>
      obtain ⟨ha, hs⟩ := List.forall_mem_cons.mp hs
      obtain ⟨found, hfound, hiff⟩ := isMember_plain env ha ht
      rw [List.allM_cons, hfound]
      cases found with
      | false => exact ⟨false, rfl, by simp [← hiff]⟩
      | true =>
          obtain ⟨rest, hrest, hall⟩ := ih hs
          exact ⟨rest, hrest, by rw [hall]; simp [← hiff]⟩

/-- What the search for the least element of `s` that is not in `t` finds. -/
def LeastOutside (s t : List (Atom ρ)) : Option (Atom ρ) → Prop
  | none => ∀ a ∈ s, a ∈ t
  | some m => m ∈ s ∧ m ∉ t ∧ ∀ a ∈ s, a ∉ t → m.key ≤ a.key

/-- One step of the search, with the elements `pre` behind it. -/
theorem least_step {pre : List (Atom ρ)} {least : Option (Atom ρ)} (hleast : LeastOutside pre t least)
    (hpre : ∀ b ∈ pre, b.Plain) (ha : a.Plain) (ht : ∀ b ∈ t, b.Plain) :
    ∃ least', (do
        if ← isMember env a t then return least
        match least with
        | none => return some a
        | some l => if (← a.compare l) < 0 then return some a else return least) = Except.ok least' ∧
      LeastOutside (pre ++ [a]) t least' := by
  obtain ⟨found, hfound, hiff⟩ := isMember_plain env ha ht
  rw [hfound]
  cases found with
  | true =>
      have hmem : a ∈ t := hiff.mp rfl
      refine ⟨least, rfl, ?_⟩
      cases least with
      | none =>
          intro b hb
          rcases List.mem_append.mp hb with hb | hb
          · exact hleast b hb
          · rwa [List.mem_singleton.mp hb]
      | some m =>
          obtain ⟨hm, hmt, hle⟩ := hleast
          refine ⟨List.mem_append_left _ hm, hmt, fun b hb hbt => ?_⟩
          rcases List.mem_append.mp hb with hb | hb
          · exact hle b hb hbt
          · exact absurd (List.mem_singleton.mp hb ▸ hmem) hbt
  | false =>
      have hmem : a ∉ t := fun h => absurd (hiff.mpr h) (by decide)
      cases least with
      | none =>
          refine ⟨some a, rfl, by simp, hmem, fun b hb hbt => ?_⟩
          rcases List.mem_append.mp hb with hb | hb
          · exact absurd (hleast b hb) hbt
          · rw [List.mem_singleton.mp hb]
      | some m =>
          obtain ⟨hm, hmt, hle⟩ := hleast
          have hcompare := Atom.compare_key ha (hpre m hm)
          by_cases hlt : a.key < m.key
          · refine ⟨some a, ?_, by simp, hmem, fun b hb hbt => ?_⟩
            · simp only [hcompare, bind, Except.bind, keyOrder_neg, hlt, if_true]
              rfl
            · rcases List.mem_append.mp hb with hb | hb
              · exact hlt.le.trans (hle b hb hbt)
              · rw [List.mem_singleton.mp hb]
          · refine ⟨some m, ?_, List.mem_append_left _ hm, hmt, fun b hb hbt => ?_⟩
            · simp only [hcompare, bind, Except.bind, keyOrder_neg, hlt, if_false]
              rfl
            · rcases List.mem_append.mp hb with hb | hb
              · exact hle b hb hbt
              · rw [List.mem_singleton.mp hb]
                exact not_lt.mp hlt

theorem leastDifference_spec (env : Env ν ρ) (hs : ∀ a ∈ s, a.Plain) (ht : ∀ a ∈ t, a.Plain) :
    ∃ least, leastDifference env s t = .ok least ∧ LeastOutside s t least := by
  have hrun : ∀ (pre rest : List (Atom ρ)) (least : Option (Atom ρ)), pre ++ rest = s → LeastOutside pre t least →
      ∃ least', rest.foldlM (fun least val => do
          if ← isMember env val t then return least
          match least with
          | none => return some val
          | some l => if (← val.compare l) < 0 then return some val else return least) least = Except.ok least' ∧
        LeastOutside s t least' := by
    intro pre rest
    induction rest generalizing pre with
    | nil =>
        intro least heq hleast
        rw [List.append_nil] at heq
        exact ⟨least, rfl, heq ▸ hleast⟩
    | cons a rest ih =>
        intro least heq hleast
        have hplain : ∀ b ∈ pre ++ a :: rest, b.Plain := heq ▸ hs
        obtain ⟨least₁, hstep, hleast₁⟩ := @least_step _ _ env _ _ _ _ hleast
          (fun b hb => hplain b (List.mem_append_left _ hb)) (hplain a (by simp)) ht
        rw [List.foldlM_cons, hstep]
        exact ih (pre ++ [a]) least₁ (by rw [List.append_assoc]; exact heq) hleast₁
  exact hrun [] s none rfl (List.forall_mem_nil _)

/-- The key of a set of values: the order of the elements upside down, since the least of them counts most. -/
def setKey (s : List (Atom ρ)) : Colex (Finset AtomKeyᵒᵈ) := toColex (s.map fun a => OrderDual.toDual a.key).toFinset

theorem mem_setKey (ha : a.Plain) (hs : ∀ b ∈ s, b.Plain) :
    OrderDual.toDual a.key ∈ ofColex (setKey s) ↔ a ∈ s := by
  simp only [setKey, ofColex_toColex, List.mem_toFinset, List.mem_map, EmbeddingLike.apply_eq_iff_eq]
  constructor
  · rintro ⟨b, hb, hkey⟩
    rwa [← (Atom.key_inj (hs b hb) ha).mp hkey]
  · exact fun ha => ⟨a, ha, rfl⟩

/-- The set that has the least element of the difference is the larger. -/
theorem setKey_lt (hs : ∀ b ∈ s, b.Plain) (ht : ∀ b ∈ t, b.Plain) {m : Atom ρ} (hm : m ∈ t) (hms : m ∉ s)
    (hleast : ∀ b ∈ s, b ∉ t → m.key < b.key) : setKey s < setKey t := by
  rw [lt_iff_exists_forall_lt]
  refine ⟨OrderDual.toDual m.key, (mem_setKey (ht m hm) ht).mpr hm, fun h => hms ((mem_setKey (ht m hm) hs).mp h), ?_⟩
  intro k hk hkt
  obtain ⟨b, hb, rfl⟩ := List.mem_map.mp (List.mem_toFinset.mp hk)
  have hbt : b ∉ t := fun h => hkt ((mem_setKey (hs b hb) ht).mpr h)
  exact OrderDual.toDual_lt_toDual.mpr (hleast b hb hbt)

theorem setKey_inj (hs : ∀ b ∈ s, b.Plain) (ht : ∀ b ∈ t, b.Plain) : setKey s = setKey t ↔ ∀ a, a ∈ s ↔ a ∈ t := by
  constructor
  · intro h a
    constructor
    · intro ha
      rw [← mem_setKey (hs a ha) ht, ← h, mem_setKey (hs a ha) hs]
      exact ha
    · intro ha
      rw [← mem_setKey (ht a ha) hs, h, mem_setKey (ht a ha) ht]
      exact ha
  · intro h
    refine congrArg toColex (Finset.ext fun k => ?_)
    simp only [List.mem_toFinset, List.mem_map, h]

/-- The comparison of two sets is that of their keys, the other way round. -/
theorem setCompare_key (env : Env ν ρ) (hs : ∀ a ∈ s, a.Plain) (ht : ∀ a ∈ t, a.Plain) :
    setCompare env t s = .ok (keyOrder (setKey s) (setKey t)) := by
  obtain ⟨min1, hmin1, hleast1⟩ := leastDifference_spec env ht hs
  obtain ⟨min2, hmin2, hleast2⟩ := leastDifference_spec env hs ht
  unfold setCompare
  rw [hmin1, hmin2]
  cases min1 with
  | none =>
      cases min2 with
      | none =>
          have heq := (setKey_inj hs ht).mpr fun a => ⟨hleast2 a, hleast1 a⟩
          rw [keyOrder_zero.mpr heq]
          rfl
      | some m2 =>
          rw [keyOrder_of_gt (setKey_lt ht hs hleast2.1 hleast2.2.1 fun b hb hbs => absurd (hleast1 b hb) hbs)]
          rfl
  | some m1 =>
      obtain ⟨hm1, hm1s, hle1⟩ := hleast1
      cases min2 with
      | none =>
          rw [keyOrder_of_lt (setKey_lt hs ht hm1 hm1s fun b hb hbt => absurd (hleast2 b hb) hbt)]
          rfl
      | some m2 =>
          obtain ⟨hm2, hm2t, hle2⟩ := hleast2
          have hcompare := Atom.compare_key (ht m1 hm1) (hs m2 hm2)
          by_cases hlt : m1.key < m2.key
          · rw [keyOrder_of_lt (setKey_lt hs ht hm1 hm1s fun b hb hbt => hlt.trans_le (hle2 b hb hbt))]
            simp only [hcompare, bind, Except.bind, keyOrder_neg, hlt, if_true]
            rfl
          · have hne : m1.key ≠ m2.key := fun h => hm2t ((Atom.key_inj (ht m1 hm1) (hs m2 hm2)).mp h ▸ hm1)
            have hgt := lt_of_le_of_ne (not_lt.mp hlt) hne.symm
            rw [keyOrder_of_gt (setKey_lt ht hs hm2 hm2t fun b hb hbs => hgt.trans_le (hle1 b hb hbs))]
            simp only [hcompare, bind, Except.bind, keyOrder_neg, hlt, if_false]
            rfl

end

/-! ### Values -/

/-- The key of a value that is defined. Sets come last. -/
def MatchVal.key : MatchVal ρ → AtomKey ⊕ₗ Colex (Finset AtomKeyᵒᵈ)
  | .UNDEFINED => Sum.inlₗ (toLex (0, []))
  | .atom a => Sum.inlₗ a.key
  | .SET s => Sum.inrₗ (setKey s)

section
variable {x y z : MatchVal ρ}

theorem Atom.type_lt_set (a : Atom ρ) : a.type < 0x0100 := by
  cases a <;> simp [Atom.type]

theorem MatchVal.compare_atom (env : Env ν ρ) (a b : Atom ρ) : (MatchVal.atom a).compare env (.atom b) = a.compare b := by
  by_cases hgt : b.type < a.type
  · simp only [MatchVal.compare, Atom.compare, MatchVal.type, hgt, if_true]
  · by_cases hlt : b.type > a.type
    · simp only [MatchVal.compare, Atom.compare, MatchVal.type, hgt, hlt, if_true, if_false]
    · simp only [MatchVal.compare, MatchVal.type, hgt, hlt, if_false]

theorem keyOrder_atom (a b : Atom ρ) : keyOrder (MatchVal.atom a).key (MatchVal.atom b).key = keyOrder a.key b.key :=
  keyOrder_congr Sum.Lex.inl_lt_inl_iff Sum.Lex.inl_lt_inl_iff

/-- The comparison of two values is that of their keys. -/
theorem MatchVal.compare_key (env : Env ν ρ) (hx : x.Comparable) (hy : y.Comparable) :
    x.compare env y = .ok (keyOrder x.key y.key) := by
  cases x with
  | UNDEFINED => exact hx.elim
  | atom a =>
      cases y with
      | UNDEFINED => exact hy.elim
      | atom b =>
          rw [MatchVal.compare_atom, keyOrder_atom]
          exact Atom.compare_key hx hy
      | SET t =>
          have hlt := a.type_lt_set
          rw [keyOrder_of_lt (Sum.Lex.inl_lt_inr _ _)]
          unfold MatchVal.compare MatchVal.type
          rw [if_neg hlt.not_gt, if_pos hlt]
  | SET s =>
      cases y with
      | UNDEFINED => exact hy.elim
      | atom b =>
          rw [keyOrder_of_gt (Sum.Lex.inl_lt_inr _ _)]
          unfold MatchVal.compare MatchVal.type
          rw [if_pos b.type_lt_set]
      | SET t =>
          have hkey : keyOrder (MatchVal.SET s).key (MatchVal.SET t).key = keyOrder (setKey s) (setKey t) :=
            keyOrder_congr Sum.Lex.inr_lt_inr_iff Sum.Lex.inr_lt_inr_iff
          rw [hkey, ← setCompare_key env hx hy]
          rfl

/-- Equal keys are those of the same value. -/
theorem MatchVal.key_inj (hx : x.Comparable) (hy : y.Comparable) : x.key = y.key ↔ x.Same y := by
  cases x with
  | UNDEFINED => exact hx.elim
  | atom a =>
      cases y with
      | UNDEFINED => exact hy.elim
      | atom b => exact (Sum.inl_injective.eq_iff (a := a.key)).trans (Atom.key_inj hx hy)
      | SET t => exact ⟨fun h => Sum.inl_ne_inr h, False.elim⟩
  | SET s =>
      cases y with
      | UNDEFINED => exact hy.elim
      | atom b => exact ⟨fun h => Sum.inr_ne_inl h, False.elim⟩
      | SET t => exact (Sum.inr_injective.eq_iff (a := setKey s)).trans (setKey_inj hx hy)

/-- Equality is comparison, where no regular expression is to be matched. -/
theorem MatchVal.equal_key (env : Env ν ρ) (hx : x.Comparable) (hy : y.Comparable) :
    x.equal env y = .ok (keyOrder x.key y.key == 0) := by
  have hequal : x.equal env y = (x.compare env y).map (· == 0) := by
    cases x with
    | UNDEFINED => rfl
    | SET s => rfl
    | atom a =>
        cases y with
        | UNDEFINED => rfl
        | SET t => rfl
        | atom b =>
            rw [MatchVal.compare_key env hx hy, keyOrder_atom]
            exact equal_plain env hx hy
  rw [hequal, MatchVal.compare_key env hx hy]
  rfl

/-- `in` is membership, or inclusion. -/
theorem in_spec (env : Env ν ρ) (hx : x.Comparable) (hy : y.Comparable) :
    ∃ found, compareVals env .IN x y = .ok found ∧ (found = true ↔ x.In y) := by
  cases x with
  | UNDEFINED => exact hx.elim
  | atom a =>
      cases y with
      | UNDEFINED => exact hy.elim
      | atom b => exact ⟨false, rfl, by simp [MatchVal.In]⟩
      | SET t => exact isMember_plain env hx hy
  | SET s =>
      cases y with
      | UNDEFINED => exact hy.elim
      | atom b => exact ⟨false, rfl, by simp [MatchVal.In]⟩
      | SET t => exact isSubset_plain env hx hy

/-- What the operators say of two values, whose comparison gives `c`. -/
structure Consistent (env : Env ν ρ) (x y : MatchVal ρ) (c : Int) : Prop where
  compare : x.compare env y = .ok c
  swap : y.compare env x = .ok (-c)
  same : c = 0 ↔ x.Same y
  eq : compareVals env .EQ x y = .ok (c == 0)
  lt : compareVals env .LT x y = .ok (decide (c < 0))
  leq : compareVals env .LEQ x y = .ok (decide (c ≤ 0))
  isIn : ∃ found, compareVals env .IN x y = .ok found ∧ (found = true ↔ x.In y)

theorem compare_consistent (env : Env ν ρ) (hx : x.Comparable) (hy : y.Comparable) :
    Consistent env x y (keyOrder x.key y.key) where
  compare := MatchVal.compare_key env hx hy
  swap := by rw [MatchVal.compare_key env hy hx, keyOrder_swap]
  same := keyOrder_zero.trans (MatchVal.key_inj hx hy)
  eq := MatchVal.equal_key env hx hy
  lt := by
    unfold compareVals
    rw [MatchVal.compare_key env hx hy]
    rfl
  leq := by
    unfold compareVals
    rw [MatchVal.compare_key env hx hy]
    rfl
  isIn := in_spec env hx hy

/-- The three comparisons of three values, and that `≤` is transitive. -/
def ComparesThrough (env : Env ν ρ) (x y z : MatchVal ρ) : Prop :=
  ∃ a b c, x.compare env y = .ok a ∧ y.compare env z = .ok b ∧ x.compare env z = .ok c ∧ (a ≤ 0 → b ≤ 0 → c ≤ 0)

theorem compare_through (env : Env ν ρ) (hx : x.Comparable) (hy : y.Comparable) (hz : z.Comparable) :
    ComparesThrough env x y z := by
  refine ⟨_, _, _, MatchVal.compare_key env hx hy, MatchVal.compare_key env hy hz, MatchVal.compare_key env hx hz, ?_⟩
  intro ha hb
  rw [keyOrder_nonpos] at ha hb ⊢
  exact ha.trans hb

/-- The comparison is a total order of the values, and the operators are consistent with it. -/
theorem matchVals_ordered (env : Env ν ρ) (hx : x.Comparable) (hy : y.Comparable) (hz : z.Comparable) :
    x.compare env x = .ok 0 ∧ (∃ c, Consistent env x y c) ∧ ComparesThrough env x y z := by
  refine ⟨?_, ⟨_, compare_consistent env hx hy⟩, compare_through env hx hy hz⟩
  rw [MatchVal.compare_key env hx hx, keyOrder_self]

end

/-- No attributes, and no regular expressions. -/
def plainEnv : Env Empty Empty := ⟨nofun, nofun, fun _ => 0⟩

/-- The set of one and two, with the two twice. -/
def repeatedSet : MatchVal Empty := .SET [.INTEGER 2, .INTEGER 1, .INTEGER 2]

theorem repeatedSet_ordered : repeatedSet.compare plainEnv repeatedSet = .ok 0 ∧
    (∃ c, Consistent plainEnv repeatedSet (.SET [.INTEGER 1, .INTEGER 2]) c) ∧
    ComparesThrough plainEnv repeatedSet (.SET [.INTEGER 1, .INTEGER 2]) (.atom (.STRING [0x61])) :=
  matchVals_ordered plainEnv (by simp [repeatedSet, MatchVal.Comparable, Atom.Plain])
    (by simp [MatchVal.Comparable, Atom.Plain]) trivial

end E9Tool
