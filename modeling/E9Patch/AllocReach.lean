import E9Patch.AllocRemove

/-!
Searches that do not overflow. The differences that `insert` computes are between a bound of the range
and a bound of an allocation, or between the bounds of the range: where none of these is `2 ^ 63` or
more, the search has a result, and it is the one that the compiled program comes to.
-/

namespace E9Patch
open PtrTree PtrTree.Shape RedBlack Intervals Bytes Fallible

variable {τ ι : Type}

/-! ### What the compiled program computes -/

/-- Where the first computation has a result, the second one has it too. -/
def Refines {α : Type} (x y : Except Overflow α) : Prop := ∀ r, x = .ok r → y = .ok r

theorem Refines.same {α : Type} {x : Except Overflow α} : Refines x x := fun _ h => h

theorem Refines.bind {α β : Type} {x y : Except Overflow α} {f g : α → Except Overflow β} (h : Refines x y)
    (hfg : ∀ a, Refines (f a) (g a)) : Refines (x >>= f) (y >>= g) := by
  intro r hr
  obtain ⟨a, ha, hr⟩ := bind_ok.mp hr
  exact bind_ok.mpr ⟨a, h a ha, hfg a r hr⟩

theorem Refines.orNull {α : Type} {n n' m m' : Except Overflow (Option α)} (hn : Refines n n')
    (hm : Refines m m') : Refines (orNull n m) (orNull n' m') := by
  intro r hr
  rcases n with e | _ | n
  · cases hr
  · rw [hn none rfl]
    exact hm r hr
  · rw [hn (some n) rfl]
    exact hr

theorem checked_refines (x : Int) : Refines (checked x) (wrapped x) := by
  intro r hr
  obtain ⟨rfl, h1, h2⟩ := checked_ok.mp hr
  simp only [INTPTR_MIN, INTPTR_MAX] at h1 h2
  exact congrArg Except.ok (signed64_eq h1 (by omega))

/-- A search without an overflow is the search of the compiled program. -/
theorem insert_refines (h : Heap τ ι) (size : Nat) (fuel : Nat) :
    (∀ x lb ub flags, Refines (h.insertLeftChild checked fuel x lb ub size flags)
      (h.insertLeftChild wrapped fuel x lb ub size flags)) ∧
    (∀ x lb ub flags, Refines (h.insertRightChild checked fuel x lb ub size flags)
      (h.insertRightChild wrapped fuel x lb ub size flags)) ∧
    ∀ root lb ub flags, Refines (h.insert checked fuel root lb ub size flags)
      (h.insert wrapped fuel root lb ub size flags) := by
  induction fuel with
  | zero =>
      refine ⟨fun _ _ _ _ => .same, fun _ _ _ _ => .same, fun root lb ub flags => ?_⟩
      unfold Heap.insert
      exact .same
  | succ fuel ih =>
      obtain ⟨ihl, ihr, ih⟩ := ih
      refine ⟨fun x lb ub flags => ?_, fun x lb ub flags => ?_, fun root lb ub flags => ?_⟩
      · rw [Heap.insertLeftChild, Heap.insertLeftChild]
        refine (checked_refines _).bind fun room => ?_
        split
        · exact .same
        · refine (checked_refines _).bind fun away => ?_
          cases h.child .left x with
          | none => exact .same
          | some l => exact ih _ _ _ _
      · rw [Heap.insertRightChild, Heap.insertRightChild]
        refine (checked_refines _).bind fun room => ?_
        split
        · exact .same
        · refine (checked_refines _).bind fun away => ?_
          cases h.child .right x with
          | none => exact .same
          | some r => exact ih _ _ _ _
      · unfold Heap.insert
        refine (checked_refines _).bind fun room => ?_
        split
        · exact .same
        · cases root with
          | none => exact .same
          | some x =>
              refine .orNull (.orNull ?_ ?_) ?_
              · split
                · exact (ihr _ _ _ _).orNull (ihl _ _ _ _)
                · exact .same
              · split
                · exact ihr _ _ _ _
                · exact .same
              · split
                · exact ihl _ _ _ _
                · exact .same

/-! ### Where nothing overflows -/

/-- From either end of the range `[lb, ub]` the far end of every allocation is less than `2 ^ 63` bytes
away. -/
def Heap.Near (h : Heap τ ι) (ids : List Nat) (lb ub : Int) : Prop :=
  ∀ m ∈ ids, h.hi m - lb ≤ INTPTR_MAX ∧ ub - h.lo m ≤ INTPTR_MAX

instance (h : Heap τ ι) (ids : List Nat) (lb ub : Int) : Decidable (h.Near ids lb ub) :=
  inferInstanceAs (Decidable (∀ m ∈ ids, _))

/-- Besides, the range itself is within `intptr_t`, and less than `2 ^ 63` bytes long. -/
structure InReach (h : Heap τ ι) (ids : List Nat) (lb ub : Int) : Prop where
  lower : INTPTR_MIN ≤ lb
  upper : ub ≤ INTPTR_MAX
  width : ub - lb ≤ INTPTR_MAX
  near : h.Near ids lb ub

instance (h : Heap τ ι) (ids : List Nat) (lb ub : Int) : Decidable (InReach h ids lb ub) :=
  decidable_of_iff (INTPTR_MIN ≤ lb ∧ ub ≤ INTPTR_MAX ∧ ub - lb ≤ INTPTR_MAX ∧ h.Near ids lb ub)
    ⟨fun ⟨h1, h2, h3, h4⟩ => ⟨h1, h2, h3, h4⟩, fun h => ⟨h.lower, h.upper, h.width, h.near⟩⟩

theorem InReach.subset {h : Heap τ ι} {ids ids' : List Nat} {lb ub : Int} (hr : InReach h ids lb ub)
    (hsub : ∀ m ∈ ids', m ∈ ids) : InReach h ids' lb ub :=
  ⟨hr.lower, hr.upper, hr.width, fun m hm => hr.near m (hsub m hm)⟩

theorem InReach.left {h : Heap τ ι} {l r : Shape Nat} {x : Nat} {lb ub : Int}
    (hr : InReach h (node l x r).inorder lb ub) : InReach h l.inorder lb ub :=
  hr.subset fun m hm => by simp [hm]

theorem InReach.right {h : Heap τ ι} {l r : Shape Nat} {x : Nat} {lb ub : Int}
    (hr : InReach h (node l x r).inorder lb ub) : InReach h r.inorder lb ub :=
  hr.subset fun m hm => by simp [hm]

/-- So it is where all addresses are in one window of `2 ^ 63` bytes. -/
theorem InReach.of_window {h : Heap τ ι} {ids : List Nat} {lb ub w : Int} (hw : INTPTR_MIN ≤ w) (hlb : w ≤ lb)
    (hub : ub ≤ w + INTPTR_MAX) (hmax : ub ≤ INTPTR_MAX)
    (hids : ∀ m ∈ ids, w ≤ h.lo m ∧ h.hi m ≤ w + INTPTR_MAX) : InReach h ids lb ub :=
  ⟨by omega, hmax, by omega, fun m hm => by have := hids m hm; omega⟩

/-- The computation has a result. -/
def Defined {α : Type} (x : Except Overflow α) : Prop := ∃ r, x = .ok r

theorem Defined.ok {α : Type} (a : α) : Defined (.ok a) := ⟨a, rfl⟩

theorem Defined.bind {α β : Type} {x : Except Overflow α} {f : α → Except Overflow β} (hx : Defined x)
    (hf : ∀ a, x = .ok a → Defined (f a)) : Defined (x >>= f) := by
  obtain ⟨a, rfl⟩ := hx
  exact hf a rfl

theorem Defined.orNull {α : Type} {n m : Except Overflow (Option α)} (hn : Defined n) (hm : Defined m) :
    Defined (orNull n m) := by
  obtain ⟨n, rfl⟩ := hn
  cases n with
  | none => exact hm
  | some n => exact .ok _

/-- A result that is in range is what is computed. -/
theorem Defined.checked_bind {β : Type} {x : Int} {f : Int → Except Overflow β} (h1 : INTPTR_MIN ≤ x)
    (h2 : x ≤ INTPTR_MAX) (hf : Defined (f x)) : Defined (checked x >>= f) :=
  .bind ⟨x, checked_ok.mpr ⟨rfl, h1, h2⟩⟩ fun a ha => by rwa [(checked_ok.mp ha).1]

section Defined

variable {h : Heap τ ι} {l r : Shape Nat} {x : Nat} {p : Option Nat} {fuel : Nat} {LB UB lb ub : Int}
  {size : Nat} {flags : Flags}

theorem insertLeftChild_defined
    (ih : ∀ {p lb ub flags}, Insertable h l p → h.Aug l → InReach h l.inorder LB UB → LB ≤ lb → ub ≤ UB →
      INTPTR_MIN ≤ ub - lb → Defined (h.insert checked fuel l.root lb ub size flags))
    (hi : Insertable h (node l x r) p) (ha : h.Aug (node l x r)) (hr : InReach h (node l x r).inorder LB UB)
    (hlb : LB ≤ lb) (hub : ub ≤ UB) (hroom : INTPTR_MIN ≤ ub - lb) (hx : INTPTR_MIN ≤ h.lo x - lb) :
    Defined (h.insertLeftChild checked (fuel + 1) x lb ub size flags) := by
  obtain ⟨hnear, -⟩ := hr.near x (by simp)
  have hwidth := hr.width
  have hord := hi.ordered.1.2 x (by simp)
  have hlo : (h.alloc x).lb = h.lo x := rfl
  rw [Heap.insertLeftChild, hlo]
  refine .checked_bind (by omega) (by omega) ?_
  split
  · exact .ok _
  · refine .checked_bind (by simp only [INTPTR_MIN]; omega) (by omega) ?_
    rw [hi.holds.2.1]
    cases l with
    | nil => exact .ok _
    | node l₁ y l₂ =>
        exact ih hi.left ha.2.1 hr.left hlb (by omega) (by simp only [INTPTR_MIN]; omega)

theorem insertRightChild_defined
    (ih : ∀ {p lb ub flags}, Insertable h r p → h.Aug r → InReach h r.inorder LB UB → LB ≤ lb → ub ≤ UB →
      INTPTR_MIN ≤ ub - lb → Defined (h.insert checked fuel r.root lb ub size flags))
    (hi : Insertable h (node l x r) p) (ha : h.Aug (node l x r)) (hr : InReach h (node l x r).inorder LB UB)
    (hlb : LB ≤ lb) (hub : ub ≤ UB) (hroom : INTPTR_MIN ≤ ub - lb) (hx : INTPTR_MIN ≤ ub - h.hi x) :
    Defined (h.insertRightChild checked (fuel + 1) x lb ub size flags) := by
  obtain ⟨-, hnear⟩ := hr.near x (by simp)
  have hwidth := hr.width
  have hord := hi.ordered.1.2 x (by simp)
  have hhi : (h.alloc x).ub = h.hi x := rfl
  rw [Heap.insertRightChild, hhi]
  refine .checked_bind (by omega) (by omega) ?_
  split
  · exact .ok _
  · refine .checked_bind (by simp only [INTPTR_MIN]; omega) (by omega) ?_
    rw [hi.holds.2.2.1]
    cases r with
    | nil => exact .ok _
    | node r₁ y r₂ =>
        exact ih hi.right ha.2.2 hr.right (by omega) hub (by simp only [INTPTR_MIN]; omega)

end Defined

/-- **No overflow.** A search of a range that is in reach has a result. -/
theorem insert_defined {h : Heap τ ι} {s : Shape Nat} {p : Option Nat} {fuel : Nat} {LB UB lb ub : Int}
    {size : Nat} {flags : Flags} (hi : Insertable h s p) (ha : h.Aug s) (hr : InReach h s.inorder LB UB)
    (hlb : LB ≤ lb) (hub : ub ≤ UB) (hroom : INTPTR_MIN ≤ ub - lb) :
    Defined (h.insert checked fuel s.root lb ub size flags) := by
  induction fuel using Nat.strong_induction_on generalizing s p lb ub flags with
  | _ fuel ih =>
      unfold Heap.insert
      cases fuel with
      | zero => exact .ok _
      | succ fuel =>
          have hwidth := hr.width
          refine .checked_bind hroom (by omega) ?_
          split
          · exact .ok _
          · cases s with
            | nil => exact .ok _
            | node l x r =>
                have hl : ∀ {lb' ub'}, LB ≤ lb' → ub' ≤ UB → INTPTR_MIN ≤ ub' - lb' →
                    INTPTR_MIN ≤ h.lo x - lb' →
                    Defined (h.insertLeftChild checked fuel x lb' ub' size flags) := by
                  intro lb' ub' h1 h2 h3 h4
                  cases fuel with
                  | zero => exact .ok _
                  | succ k => exact insertLeftChild_defined (ih k (by omega)) hi ha hr h1 h2 h3 h4
                have hrt : ∀ {lb' ub'}, LB ≤ lb' → ub' ≤ UB → INTPTR_MIN ≤ ub' - lb' →
                    INTPTR_MIN ≤ ub' - h.hi x →
                    Defined (h.insertRightChild checked fuel x lb' ub' size flags) := by
                  intro lb' ub' h1 h2 h3 h4
                  cases fuel with
                  | zero => exact .ok _
                  | succ k => exact insertRightChild_defined (ih k (by omega)) hi ha hr h1 h2 h3 h4
                -- the bounds kept at the node are those of the first and the last allocation below it
                obtain ⟨haug, -, -⟩ := ha
                obtain ⟨⟨u, hu, hlu⟩, hleast⟩ := haug.least
                obtain ⟨⟨v, hv, hvh⟩, hgreatest⟩ := haug.greatest
                have hx : x ∈ l.inorder ++ x :: r.inorder := by simp
                have hxo := hi.ordered.1.2 x hx
                have huo := hi.ordered.1.2 u hu
                have hvo := hi.ordered.1.2 v hv
                have hux := hleast x hx
                have hvx := hgreatest x hx
                have hnu := hr.near u hu
                have hnv := hr.near v hv
                have hnx := hr.near x hx
                simp only [INTPTR_MIN, INTPTR_MAX] at *
                refine .orNull (.orNull ?_ ?_) ?_
                · split
                  · exact (hrt (by omega) (by omega) (by omega) (by omega)).orNull
                      (hl (by omega) (by omega) (by omega) (by omega))
                  · exact .ok _
                · split
                  · exact hrt (by omega) (by omega) (by omega) (by omega)
                  · exact .ok _
                · split
                  · exact hl (by omega) (by omega) (by omega) (by omega)
                  · exact .ok _

/-! ### The calls -/

theorem verify_range {lb ub : Int} (h : verify lb ub) :
    RELATIVE_ADDRESS_MIN ≤ lb ∧ lb ≤ ub ∧ ub ≤ ABSOLUTE_ADDRESS_MAX := by
  simp only [verify, IS_RELATIVE, IS_ABSOLUTE, RELATIVE_ADDRESS_MIN, RELATIVE_ADDRESS_MAX,
    ABSOLUTE_ADDRESS_MIN, ABSOLUTE_ADDRESS_MAX] at h ⊢
  grind

theorem search_defined {t : Tree τ ι} {ids : List Nat} {LB UB lb ub : Int} (hb : Balanced t ids)
    (hr : InReach t.heap ids LB UB) (hlb : LB ≤ lb) (hub : ub ≤ UB) (hroom : INTPTR_MIN ≤ ub - lb)
    (fuel size : Nat) (flags : Flags) :
    Defined (t.heap.insert checked fuel t.root lb ub size flags) := by
  obtain ⟨s, hv, -, rfl⟩ := hb
  rw [hv.root]
  exact insert_defined ⟨hv.holds, hv.ordered, hv.fresh⟩ hv.aug hr hlb hub hroom

theorem allocate_refines (t : Tree τ ι) (order : Bool) (lb ub : Int) (presize : Nat) (tmpsize : Int)
    (T : Option τ) (I : Option ι) (same_page : Bool) :
    Refines (t.allocate checked order lb ub presize tmpsize T I same_page)
      (t.allocate wrapped order lb ub presize tmpsize T I same_page) := by
  unfold Tree.allocate
  split
  · exact .same
  · split
    · exact .same
    · refine (checked_refines _).bind fun lb => (checked_refines _).bind fun ub => ?_
      refine Refines.bind (.orNull ?_ ((insert_refines _ _ _).2.2 _ _ _ _)) fun n => ?_
      · split
        · exact (insert_refines _ _ _).2.2 _ _ _ _
        · exact .same
      · exact .same

theorem allocate_defined {t : Tree τ ι} {ids : List Nat} (order : Bool) {lb ub : Int} {presize : Nat}
    {tmpsize : Int} (T : Option τ) (I : Option ι) (same_page : Bool) (hb : Balanced t ids)
    (hr : verify lb (ub + TRAMPOLINE_MAX) → 0 ≤ tmpsize → InReach t.heap ids (lb - presize) (ub + tmpsize)) :
    Defined (t.allocate checked order lb ub presize tmpsize T I same_page) := by
  unfold Tree.allocate
  split
  · exact .ok _
  · rename_i hver
    split
    · exact .ok _
    · rename_i htmp
      have hver' : verify lb (ub + TRAMPOLINE_MAX) := by simpa using hver
      replace hr := hr hver' (by omega)
      obtain ⟨hmin, hle, hmax⟩ := verify_range hver'
      have hlower := hr.lower
      have hupper := hr.upper
      simp only [INTPTR_MIN, INTPTR_MAX, TRAMPOLINE_MAX, RELATIVE_ADDRESS_MIN, ABSOLUTE_ADDRESS_MAX] at *
      refine .checked_bind hlower (by simp only [INTPTR_MAX]; omega) ?_
      refine .checked_bind (by simp only [INTPTR_MIN]; omega) hupper ?_
      refine .bind (.orNull ?_ (search_defined hb hr (le_refl _) (le_refl _) ?_ _ _ _)) fun n _ => ?_
      · split
        · exact search_defined hb hr (le_refl _) (by omega) (by simp only [INTPTR_MIN]; omega) _ _ _
        · exact .ok _
      · simp only [INTPTR_MIN]
        omega
      · cases n with
        | none => exact .ok _
        | some n => exact .ok _

theorem reserve_refines (t : Tree τ ι) (lb ub : Int) : Refines (t.reserve checked lb ub) (t.reserve wrapped lb ub) := by
  unfold Tree.reserve Tree.reservePages
  split
  · exact .same
  · refine (checked_refines _).bind fun size => ?_
    split
    · exact .same
    · exact ((insert_refines _ _ _).2.2 _ _ _ _).bind fun n => .same

theorem reservePages_defined {t : Tree τ ι} {ids : List Nat} {lb ub : Int} (hb : Balanced t ids)
    (hroom : INTPTR_MIN ≤ ub - lb) (hr : InReach t.heap ids lb ub) : Defined (t.reservePages checked lb ub) := by
  refine .checked_bind hroom hr.width ?_
  split
  · exact .ok _
  · refine .bind (search_defined hb hr (le_refl _) (le_refl _) hroom _ _ _) fun n _ => ?_
    cases n with
    | none => exact .ok _
    | some n => exact .ok _

theorem reserve_defined {t : Tree τ ι} {ids : List Nat} {lb ub : Int} (hb : Balanced t ids)
    (hr : verify lb ub → InReach t.heap ids (lb - lb % PAGE_SIZE)
      (ub + (if ub % PAGE_SIZE = 0 then 0 else PAGE_SIZE - ub % PAGE_SIZE))) :
    Defined (t.reserve checked lb ub) := by
  unfold Tree.reserve
  split
  · exact .ok _
  · rename_i hver
    have hver' : verify lb ub := by simpa using hver
    obtain ⟨-, hle, -⟩ := verify_range hver'
    refine reservePages_defined hb ?_ (hr hver')
    simp only [INTPTR_MIN, PAGE_SIZE]
    omega

end E9Patch
