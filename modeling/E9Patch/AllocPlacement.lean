import E9Patch.AllocSet

/-!
What `allocate` promises its callers: a result is where it may be, and none is given only where no
free range is left. The search skips a subtree whose kept gap is smaller than the template; the field
holds 63 bits, so that this loses free ranges only in a tree with allocations `2 ^ 63` bytes apart. Where
an allocation is that far from the range asked for, a difference may overflow.
-/

namespace E9Patch
open PtrTree PtrTree.Shape RedBlack Intervals Bytes Fallible

variable {τ ι : Type}

/-! ### No free range is lost -/

/-- `[x, x + size)` is clear of the allocations of `ids`. -/
def Heap.Clear (h : Heap τ ι) (ids : List Nat) (x : Int) (size : Nat) : Prop :=
  ∀ z ∈ ids, h.hi z ≤ x ∨ x + size ≤ h.lo z

/-- No subtree is skipped for its kept gap that has a gap of `size` bytes. -/
def Heap.KeepsGaps (h : Heap τ ι) (size : Nat) : Shape Nat → Prop
  | .nil => True
  | .node l x r => (size ≤ maxGap h.lo h.hi (l.inorder ++ x :: r.inorder) → size ≤ h.gap x) ∧
      h.KeepsGaps size l ∧ h.KeepsGaps size r

/-- The gap field is wide enough where the allocations are less than `2 ^ 63` bytes apart. -/
theorem keepsGaps_of_span {h : Heap τ ι} {s : Shape Nat} {a b : Int} (ha : h.Aug s)
    (hspan : ∀ z ∈ s.inorder, a ≤ h.lo z ∧ h.hi z ≤ b) (hab : b - a < 2 ^ 63) (size : Nat) :
    h.KeepsGaps size s := by
  induction s with
  | nil => trivial
  | node l x r ihl ihr =>
      obtain ⟨haug, hl, hr⟩ := ha
      refine ⟨fun hsize => ?_, ihl hl fun z hz => hspan z (by simp [hz]),
        ihr hr fun z hz => hspan z (by simp [hz])⟩
      obtain ⟨u, hu, hlu⟩ := haug.least.1
      obtain ⟨v, hv, hvh⟩ := haug.greatest.1
      have h1 := (hspan u hu).1
      have h2 := (hspan v hv).2
      have := haug.gap (by omega)
      omega

theorem node_isSome (h : Heap τ ι) (p : Option Nat) (lb ub : Int) (size : Nat) {flags : Flags}
    (hf : flags.same_page = false) : (h.node p lb ub size flags).isSome := by
  have : (nodeBounds lb ub size flags).isSome := by simp [nodeBounds, hf]
  unfold Heap.node
  cases hn : nodeBounds lb ub size flags with
  | none => simp [hn] at this
  | some v => rfl

/-- What the search needs in order not to fail in `s`: fuel, and a free range within its bounds. -/
structure Findable (h : Heap τ ι) (s : Shape Nat) (fuel : Nat) (lb ub x : Int) (size : Nat) : Prop where
  aug : h.Aug s
  gaps : h.KeepsGaps size s
  fuel : 2 * s.size < fuel
  lower : lb ≤ x
  upper : x + size ≤ ub
  clear : h.Clear s.inorder x size

/-- If the search has a result, it is not null. -/
def HasPlace {α : Type} (x : Except Overflow (Option α)) : Prop := ∀ r, x = .ok r → r.isSome

theorem HasPlace.ok {α : Type} {r : Option α} (h : r.isSome) : HasPlace (.ok r) := by
  rintro _ ⟨⟩
  exact h

theorem HasPlace.checked_bind {α : Type} {x : Int} {f : Int → Except Overflow (Option α)} (h : HasPlace (f x)) :
    HasPlace (checked x >>= f) := by
  intro r hr
  obtain ⟨y, hy, hf⟩ := bind_ok.mp hr
  rw [(checked_ok.mp hy).1] at hf
  exact h r hf

theorem HasPlace.orNull_left {α : Type} {n m : Except Overflow (Option α)} (h : HasPlace n) : HasPlace (orNull n m) := by
  rcases n with e | _ | n
  · rintro _ ⟨⟩
  · exact absurd (h none rfl) (by simp)
  · exact .ok rfl

theorem HasPlace.orNull_right {α : Type} {n m : Except Overflow (Option α)} (h : HasPlace m) : HasPlace (orNull n m) := by
  rcases n with e | _ | n
  · rintro _ ⟨⟩
  · exact h
  · exact .ok rfl

section Complete

variable {h : Heap τ ι} {l r : Shape Nat} {y : Nat} {p : Option Nat} {fuel : Nat} {lb ub x : Int}
  {size : Nat} {flags : Flags}

/-- The right child is searched successfully for a range behind the node. -/
theorem insertRightChild_finds
    (ih : ∀ {p fuel lb ub flags}, Insertable h r p → Findable h r fuel lb ub x size →
      flags.same_page = false → HasPlace (h.insert checked fuel r.root lb ub size flags))
    (hi : Insertable h (node l y r) p) (hx : Findable h (node l y r) (fuel + 1) lb ub x size)
    (hy : h.hi y ≤ x) (hf : flags.same_page = false) :
    HasPlace (h.insertRightChild checked fuel y lb ub size flags) := by
  have hhi : (h.alloc y).ub = h.hi y := rfl
  have hlb := hx.lower
  have hub := hx.upper
  have hfuel := hx.fuel
  rw [size_node] at hfuel
  obtain ⟨fuel, rfl⟩ : ∃ k, fuel = k + 1 := ⟨fuel - 1, by omega⟩
  rw [Heap.insertRightChild, hhi]
  refine .checked_bind ?_
  rw [if_neg (by omega)]
  refine .checked_bind ?_
  rw [hi.holds.2.2.1]
  cases r with
  | nil =>
      refine .ok ?_
      rw [Option.isSome_map]
      exact node_isSome h _ _ _ _ hf
  | node r₁ z r₂ =>
      refine ih hi.right ⟨hx.aug.2.2, hx.gaps.2.2, by omega, by omega, hub, fun z hz => ?_⟩ hf
      exact hx.clear z (List.mem_append_right _ (List.mem_cons_of_mem _ hz))

/-- The left child is searched successfully for a range before the node. -/
theorem insertLeftChild_finds
    (ih : ∀ {p fuel lb ub flags}, Insertable h l p → Findable h l fuel lb ub x size →
      flags.same_page = false → HasPlace (h.insert checked fuel l.root lb ub size flags))
    (hi : Insertable h (node l y r) p) (hx : Findable h (node l y r) (fuel + 1) lb ub x size)
    (hy : x + size ≤ h.lo y) (hf : flags.same_page = false) :
    HasPlace (h.insertLeftChild checked fuel y lb ub size flags) := by
  have hlo : (h.alloc y).lb = h.lo y := rfl
  have hlb := hx.lower
  have hub := hx.upper
  have hfuel := hx.fuel
  rw [size_node] at hfuel
  obtain ⟨fuel, rfl⟩ : ∃ k, fuel = k + 1 := ⟨fuel - 1, by omega⟩
  rw [Heap.insertLeftChild, hlo]
  refine .checked_bind ?_
  rw [if_neg (by omega)]
  refine .checked_bind ?_
  rw [hi.holds.2.1]
  cases l with
  | nil =>
      refine .ok ?_
      rw [Option.isSome_map]
      exact node_isSome h _ _ _ _ hf
  | node l₁ z l₂ =>
      refine ih hi.left ⟨hx.aug.2.1, hx.gaps.2.1, by omega, hlb, by omega, fun z hz => ?_⟩ hf
      exact hx.clear z (List.mem_append_left _ hz)

/-- A clear range within the kept bounds of a node fits into the kept gap. -/
theorem Findable.gap_le (hi : Insertable h (node l y r) p)
    (hx : Findable h (node l y r) fuel lb ub x size) (hlb : h.lb y ≤ x) (hub : x + size ≤ h.ub y) :
    size ≤ h.gap y := by
  obtain ⟨haug, -, -⟩ := hx.aug
  refine hx.gaps.1 ?_
  rcases Nat.eq_zero_or_pos size with h0 | hpos
  · rw [h0]
    exact maxGap_nonneg _
  obtain ⟨⟨u, hu, hlu⟩, -⟩ := haug.least
  obtain ⟨⟨v, hv, hvh⟩, -⟩ := haug.greatest
  -- the first allocation is before the range and the last one behind it
  refine le_maxGap hi.ordered.1 hu hv ?_ ?_ (by omega) hx.clear
  · rcases hx.clear u hu with h1 | h1
    · exact h1
    · omega
  · rcases hx.clear v hv with h1 | h1
    · omega
    · exact h1

end Complete

/-- **Completeness of the search.** Where a free range of the size is within the bounds, a node is
made. -/
theorem insert_finds {h : Heap τ ι} {s : Shape Nat} {p : Option Nat} {fuel : Nat} {lb ub x : Int}
    {size : Nat} {flags : Flags} (hi : Insertable h s p) (hx : Findable h s fuel lb ub x size)
    (hf : flags.same_page = false) : HasPlace (h.insert checked fuel s.root lb ub size flags) := by
  have hlb := hx.lower
  have hub := hx.upper
  induction s generalizing p fuel lb ub flags with
  | nil =>
      obtain ⟨fuel, rfl⟩ : ∃ k, fuel = k + 1 := ⟨fuel - 1, by have := hx.fuel; omega⟩
      refine .checked_bind ?_
      rw [if_neg (by omega)]
      exact .ok (node_isSome h _ _ _ _ hf)
  | node l y r ihl ihr =>
      obtain ⟨fuel, rfl⟩ : ∃ k, fuel = k + 1 := ⟨fuel - 1, by have := hx.fuel; omega⟩
      have hl : ∀ {lb' ub'}, lb' ≤ x → x + size ≤ ub' → x + size ≤ h.lo y →
          HasPlace (h.insertLeftChild checked fuel y lb' ub' size flags) := fun h1 h2 h3 =>
        insertLeftChild_finds (fun hi hx hf => ihl hi hx hf hx.lower hx.upper) hi
          ⟨hx.aug, hx.gaps, hx.fuel, h1, h2, hx.clear⟩ h3 hf
      have hr : ∀ {lb' ub'}, lb' ≤ x → x + size ≤ ub' → h.hi y ≤ x →
          HasPlace (h.insertRightChild checked fuel y lb' ub' size flags) := fun h1 h2 h3 =>
        insertRightChild_finds (fun hi hx hf => ihr hi hx hf hx.lower hx.upper) hi
          ⟨hx.aug, hx.gaps, hx.fuel, h1, h2, hx.clear⟩ h3 hf
      obtain ⟨haug, -, -⟩ := hx.aug
      have hy : y ∈ l.inorder ++ y :: r.inorder := by simp
      have hyo := hi.ordered.1.2 y hy
      have hleast := haug.least.2 y hy
      have hgreatest := haug.greatest.2 y hy
      refine .checked_bind ?_
      rw [if_neg (by omega)]
      by_cases hin : h.lb y ≤ x ∧ x + size ≤ h.ub y
      · -- the range is between two allocations
        refine .orNull_left (.orNull_left ?_)
        rw [if_pos (hx.gap_le hi hin.1 hin.2)]
        rcases hx.clear y hy with h1 | h1
        · exact .orNull_left (hr (by omega) (by omega) h1)
        · exact .orNull_right (hl (by omega) (by omega) h1)
      · by_cases hup : h.ub y < x + size
        · -- the range is behind them all
          obtain ⟨⟨v, hv, hvh⟩, -⟩ := haug.greatest
          have hvo := hi.ordered.1.2 v hv
          have hvx : h.hi v ≤ x := by
            rcases hx.clear v hv with h1 | h1
            · exact h1
            · omega
          refine .orNull_left (.orNull_right ?_)
          rw [if_pos (by omega)]
          exact hr (by omega) (by omega) (by omega)
        · -- the range is before them all
          obtain ⟨⟨u, hu, hlu⟩, -⟩ := haug.least
          have huo := hi.ordered.1.2 u hu
          have hux : x + size ≤ h.lo u := by
            rcases hx.clear u hu with h1 | h1
            · omega
            · exact h1
          refine .orNull_right ?_
          rw [if_pos (by omega)]
          exact hl (by omega) (by omega) (by omega)

/-! ### Pages -/

/-- `[a, b)` is within one page. -/
def InPage (a b : Int) : Prop := ∃ k : Int, PAGE_SIZE * k ≤ a ∧ b ≤ PAGE_SIZE * (k + 1)

/-- With the flag a node is within a page. Its size is at most a page, which `node` asserts. -/
theorem nodeBounds_page {lb ub : Int} {size : Nat} {flags : Flags} {LB UB : Int}
    (h : nodeBounds lb ub size flags = some (LB, UB)) (hfit : RangeFits lb ub size) (hf : flags.same_page = true)
    (hsize : size ≤ PAGE_SIZE) : InPage LB UB := by
  obtain ⟨hlb, hub, hroom⟩ := hfit
  simp only [INTPTR_MIN, INTPTR_MAX] at hlb hub
  unfold nodeBounds at h
  rw [signed64_eq (x := lb + size) (by omega) (by omega), signed64_eq (x := ub - size) (by omega) (by omega)] at h
  generalize (if flags.right = true then false else flags.lb || !flags.ub) = alloc_left at h
  simp only [PAGE_SIZE] at hsize
  cases alloc_left <;>
    simp only [hf, true_and, if_true, Bool.false_eq_true, if_false, PAGE_SIZE, toU64] at h <;> split at h
  all_goals try split at h
  all_goals simp only [reduceCtorEq, Option.some.injEq, Prod.mk.injEq] at h
  all_goals obtain ⟨rfl, rfl⟩ := h
  -- moved to the end of a page, or where it was
  · exact ⟨ub / 4096 - 1, by simp only [PAGE_SIZE]; omega, by simp only [PAGE_SIZE]; omega⟩
  · exact ⟨(ub - size) / 4096, by simp only [PAGE_SIZE]; omega, by simp only [PAGE_SIZE]; omega⟩
  · exact ⟨lb / 4096 + 1, by simp only [PAGE_SIZE]; omega, by simp only [PAGE_SIZE]; omega⟩
  · exact ⟨lb / 4096, by simp only [PAGE_SIZE]; omega, by simp only [PAGE_SIZE]; omega⟩

/-- **Pages.** What `insert` makes under the flag is within a page. -/
theorem insert_page {h h' : Heap τ ι} {fuel size n : Nat} {root : Option Nat} {lb ub : Int} {flags : Flags}
    (hlb : INTPTR_MIN ≤ lb) (hub : ub ≤ INTPTR_MAX) (hsize : size ≤ PAGE_SIZE) (hf : flags.same_page = true)
    (hins : h.insert checked fuel root lb ub size flags = .ok (some (h', n))) :
    InPage (h'.alloc n).lb (h'.alloc n).ub := by
  obtain ⟨p, lb', ub', flags', r, hfit, hflags, hnode, hn, halloc⟩ := insert_node hlb hub hins
  unfold Heap.node at hnode
  split at hnode
  · cases hnode
  · rename_i LB UB hb
    cases hnode
    simp only at hn halloc
    rw [halloc, hn]
    simpa using nodeBounds_page hb hfit (hflags.trans hf) hsize

/-! ### The placement of an allocation -/

/-- `p` is in the address space that `lb` is in. -/
def SameSpace (lb p : Int) : Prop := IS_RELATIVE lb ∧ IS_RELATIVE p ∨ IS_ABSOLUTE lb ∧ IS_ABSOLUTE p

instance (lb p : Int) : Decidable (SameSpace lb p) := inferInstanceAs (Decidable (_ ∨ _))

/-- What the caller of `allocate` relies on: the entry is where it asked for, the size is that of the
prologue and the template, and the allocation meets no other one, nor leaves the address space, nor,
if so asked, a page. -/
structure Placement (t : Tree τ ι) (ids : List Nat) (lb ub : Int) (presize : Nat) (tmpsize : Int)
    (same_page : Bool) (a : Alloc τ ι) : Prop where
  entry : a.entry = presize
  lower : lb ≤ a.lb + a.entry
  upper : a.lb + a.entry ≤ ub
  size : a.ub - a.lb = presize + tmpsize
  disjoint : ∀ m ∈ ids, (t.heap.alloc m).ub ≤ a.lb ∨ a.ub ≤ (t.heap.alloc m).lb
  space : SameSpace lb a.lb ∧ SameSpace lb a.ub
  page : same_page = true → InPage a.lb a.ub

/-- The promise of `allocate` about its result. -/
def AllocateMeets (t : Tree τ ι) (ids : List Nat) (lb ub : Int) (presize : Nat) (tmpsize : Int)
    (same_page : Bool) : Option (Tree τ ι × Nat) → Prop
  | some (t', n) => Placement t ids lb ub presize tmpsize same_page (t'.heap.alloc n)
  | none => same_page = false → ¬∃ x, lb - presize ≤ x ∧ x + (presize + tmpsize) ≤ ub + tmpsize ∧
      ∀ m ∈ ids, (t.heap.alloc m).ub ≤ x ∨ x + (presize + tmpsize) ≤ (t.heap.alloc m).lb

/-- No subtree of the tree keeps too small a gap for a search for `size` bytes. -/
def GapsKept (t : Tree τ ι) (size : Nat) : Prop := ∃ s, Valid t s ∧ t.heap.KeepsGaps size s

/-- So it is where the allocations are less than `2 ^ 63` bytes apart. -/
theorem gapsKept_of_span {t : Tree τ ι} {ids : List Nat} {a b : Int} (hb : Balanced t ids)
    (hspan : ∀ m ∈ ids, a ≤ (t.heap.alloc m).lb ∧ (t.heap.alloc m).ub ≤ b) (hab : b - a < 2 ^ 63)
    (size : Nat) : GapsKept t size := by
  obtain ⟨s, hv, -, rfl⟩ := hb
  exact ⟨s, hv, keepsGaps_of_span hv.aug hspan hab size⟩

/-- All of a successful `allocate` but the address space. -/
theorem allocate_placed {t t' : Tree τ ι} {ids : List Nat} {order : Bool} {lb ub : Int}
    {presize : Nat} {tmpsize : Int} {T : Option τ} {I : Option ι} {same_page : Bool} {n : Nat}
    (hb : Balanced t ids) (hpage : same_page = true → presize + tmpsize ≤ PAGE_SIZE)
    (h : t.allocate checked order lb ub presize tmpsize T I same_page = .ok (some (t', n))) :
    ∃ LB, t'.heap.alloc n = ⟨LB, LB + (presize + tmpsize), I, T, presize⟩ ∧ lb ≤ LB + presize ∧
      LB + presize ≤ ub ∧
      (∀ m ∈ ids, t.heap.hi m ≤ LB ∨ LB + (presize + tmpsize) ≤ t.heap.lo m) ∧
      (same_page = true → InPage LB (LB + (presize + tmpsize))) := by
  obtain ⟨hver, htmp, hmin, UB, flags, h', hUB, hmax, hflags, hins, rfl⟩ := allocate_cases h
  have hsize : ((presize + tmpsize.toNat : Nat) : Int) = presize + tmpsize := by omega
  obtain ⟨LB, h1, h2, h3, h4⟩ := insert_grow hb hins hmin hmax
  obtain ⟨⟨ids', hb', hp⟩, hnew, halloc⟩ := h4.setAlloc T I presize
  rw [hsize] at h2 h3 halloc
  refine ⟨LB, by simp [halloc], by omega, by omega, fun m hm => ?_, fun hs => ?_⟩
  · -- in the new tree one of the two is before the other
    obtain ⟨s', hv', -, rfl⟩ := hb'
    have hne : m ≠ n := fun he => hnew (he ▸ hm)
    have hm' : m ∈ s'.inorder := hp.mem_iff.mpr (by simp [hm])
    have hn' : n ∈ s'.inorder := hp.mem_iff.mpr (by simp)
    have := hv'.ordered.1.disjoint hm' hn' hne
    simpa [Heap.lo, Heap.hi, halloc, hne] using this
  · have := hpage hs
    have := insert_page hmin hmax (by omega) (hflags.trans hs) hins
    rwa [h3] at this

/-- A free range is found. -/
theorem allocate_finds {t : Tree τ ι} {s : Shape Nat} (order : Bool) {lb ub : Int} {presize : Nat}
    {tmpsize x : Int} (T : Option τ) (I : Option ι) (hv : Valid t s)
    (hg : t.heap.KeepsGaps (presize + tmpsize.toNat) s) (hver : verify lb (ub + TRAMPOLINE_MAX))
    (htmp : 0 ≤ tmpsize) (hlower : lb - presize ≤ x) (hupper : x + (presize + tmpsize) ≤ ub + tmpsize)
    (hclear : ∀ m ∈ s.inorder, t.heap.hi m ≤ x ∨ x + (presize + tmpsize) ≤ t.heap.lo m) :
    HasPlace (t.allocate checked order lb ub presize tmpsize T I false) := by
  have hsize : ((presize + tmpsize.toNat : Nat) : Int) = presize + tmpsize := by omega
  have hfuel : 2 * s.size < 2 * t.heap.fresh + 1 := by
    have := size_le_fresh hv.toLinked
    omega
  have hfind : Findable t.heap s (2 * t.heap.fresh + 1) (lb - presize) (ub + tmpsize) x
      (presize + tmpsize.toNat) :=
    ⟨hv.aug, hg, hfuel, hlower, by rwa [hsize], fun z hz => by rw [hsize]; exact hclear z hz⟩
  unfold Tree.allocate
  rw [if_neg (by simpa using hver), if_neg (by omega)]
  refine .checked_bind (.checked_bind ?_)
  intro r hr
  obtain ⟨o, ho, hr⟩ := bind_ok.mp hr
  have hins := insert_finds ⟨hv.holds, hv.ordered, hv.fresh⟩ hfind
    (show (⟨false, false, false, false⟩ : Flags).same_page = false from rfl)
  rw [← hv.root] at hins
  have hsome := hins.orNull_right o ho
  cases o with
  | none => cases hsome
  | some o =>
      cases hr
      rfl

theorem SameSpace.between {lb a b x : Int} (ha : SameSpace lb a) (hb : SameSpace lb b) (hax : a ≤ x)
    (hxb : x ≤ b) : SameSpace lb x := by
  simp only [SameSpace, IS_RELATIVE, IS_ABSOLUTE, RELATIVE_ADDRESS_MIN, RELATIVE_ADDRESS_MAX,
    ABSOLUTE_ADDRESS_MIN, ABSOLUTE_ADDRESS_MAX] at *
  omega

/-- A tree with one allocation. -/
def Tree.single (lb ub : Int) : Tree τ ι where
  root := some 0
  heap :=
    { child := fun _ _ => none, parent := fun _ => none, alloc := fun _ => ⟨lb, ub, none, none, 0⟩,
      gap := fun _ => 0, color := fun _ => .black, lb := fun _ => lb, ub := fun _ => ub, fresh := 1 }

theorem single_balanced {lb ub : Int} (hle : lb ≤ ub) (hlb : lb ≤ INTPTR_MAX) (hub : INTPTR_MIN ≤ ub) :
    Balanced (Tree.single lb ub : Tree τ ι) [0] ∧
      ∀ size, GapsKept (Tree.single lb ub : Tree τ ι) size := by
  have hv : Valid (Tree.single lb ub : Tree τ ι) (node .nil 0 .nil) :=
    ⟨⟨rfl, ⟨rfl, rfl, rfl, trivial, trivial⟩, by simp, by simp [Tree.single],
      ⟨by simpa [Sorted, Heap.lo, Heap.hi, Tree.single] using hle,
        by simpa [Heap.lo, Heap.hi, Tree.single] using ⟨hlb, hub⟩⟩⟩,
      ⟨Augmented.single 0, trivial, trivial⟩⟩
  refine ⟨⟨_, hv, ?_, rfl⟩, fun size => ⟨_, hv, ?_, trivial, trivial⟩⟩
  · exact ⟨isBlack_some.mpr rfl, 1, ⟨fun h => Color.noConfusion h, 0, rfl, rfl, rfl⟩⟩
  · intro h
    have : ((Tree.single lb ub : Tree τ ι).heap.gap 0 : Int) = 0 := rfl
    simp only [inorder_nil, List.nil_append, maxGap] at h
    omega

/-- The promise is kept by the search that does not overflow, where the range with the prologue before it
and the template behind it is within the address space. -/
theorem allocate_meets {t : Tree τ ι} {ids : List Nat} {order : Bool} {lb ub : Int} {presize : Nat}
    {tmpsize : Int} {T : Option τ} {I : Option ι} {same_page : Bool} {r : Option (Tree τ ι × Nat)}
    (hver : verify lb (ub + TRAMPOLINE_MAX)) (htmp : 0 ≤ tmpsize) (hlow : SameSpace lb (lb - presize))
    (hupp : SameSpace lb (ub + tmpsize)) (hb : Balanced t ids) (hgaps : GapsKept t (presize + tmpsize.toNat))
    (hpage : same_page = true → presize + tmpsize ≤ PAGE_SIZE)
    (hres : t.allocate checked order lb ub presize tmpsize T I same_page = .ok r) :
    AllocateMeets t ids lb ub presize tmpsize same_page r := by
  cases r with
  | some r =>
      obtain ⟨t', n⟩ := r
      obtain ⟨LB, ha, h1, h2, h3, h4⟩ := allocate_placed hb hpage hres
      have hspace : ∀ x, LB ≤ x → x ≤ LB + (presize + tmpsize) → SameSpace lb x := fun x hx hx' =>
        hlow.between hupp (by omega) (by omega)
      rw [AllocateMeets, ha]
      exact ⟨rfl, h1, h2, by simp only; omega, h3,
        ⟨hspace _ (by simp) (by simp only; omega), hspace _ (by simp only; omega) (by simp)⟩, h4⟩
  | none =>
      rintro rfl ⟨x, h1, h2, h3⟩
      obtain ⟨s, hv, hg⟩ := hgaps
      obtain ⟨s', hv', -, rfl⟩ := hb
      obtain rfl := holds_unique hv.holds hv'.holds (hv.root.symm.trans hv'.root)
      have := allocate_finds order T I hv hg hver htmp h1 h2 h3 _ hres
      cases this

/-- An upper bound that overflows with the template is wrapped round to a negative address, and nothing is
found behind the one allocation of a tree. -/
theorem allocate_wraps {lb ub : Int} {presize : Nat} {tmpsize : Int} (order : Bool)
    (hver : verify lb (ub + TRAMPOLINE_MAX)) (hle : lb ≤ ub) (hpre : presize < 2 ^ 31) (htmp : tmpsize < 2 ^ 31)
    (hwrap : INTPTR_MAX < ub + tmpsize) :
    (Tree.single (lb - presize) (ub - presize) : Tree τ ι).allocate wrapped order lb ub presize tmpsize none none
      false = .ok none := by
  have hspace : ABSOLUTE_ADDRESS_MIN ≤ lb ∧ ub + TRAMPOLINE_MAX ≤ ABSOLUTE_ADDRESS_MAX := by
    simp only [verify, IS_RELATIVE, IS_ABSOLUTE, RELATIVE_ADDRESS_MIN, RELATIVE_ADDRESS_MAX, INTPTR_MAX,
      ABSOLUTE_ADDRESS_MIN, ABSOLUTE_ADDRESS_MAX, TRAMPOLINE_MAX] at hver hwrap ⊢
    grind
  simp only [ABSOLUTE_ADDRESS_MIN, ABSOLUTE_ADDRESS_MAX, TRAMPOLINE_MAX, INTPTR_MAX] at hspace hwrap
  have hlow : signed64 (lb - presize) = lb - presize := signed64_eq (by omega) (by omega)
  have hupp : signed64 (ub + tmpsize) = ub + tmpsize - 2 ^ 64 := by
    unfold signed64
    omega
  have hroom : signed64 (ub + tmpsize - 2 ^ 64 - (lb - presize)) = ub + tmpsize - (lb - presize) := by
    unfold signed64
    omega
  have hinsert : (Tree.single (lb - presize) (ub - presize) : Tree τ ι).heap.insert wrapped 3 (some 0) (lb - presize)
      (ub + tmpsize - 2 ^ 64) (presize + tmpsize.toNat) ⟨false, false, false, false⟩ = .ok none := by
    rw [Heap.insert, wrapped, hroom]
    show (if _ then _ else orNull (orNull (if _ ≤ 0 then _ else _) (if _ > ub - presize then _ else _))
      (if lb - presize < lb - presize then _ else _)) = _
    rw [if_neg (by omega), if_neg (by omega), if_neg (by omega), if_neg (by omega)]
    rfl
  unfold Tree.allocate
  rw [if_neg (by simpa using hver), if_neg (by omega), wrapped, wrapped, hlow, hupp]
  show orNull (if _ ∧ ub + tmpsize - 2 ^ 64 > 0x70C00000 then _ else _) (Heap.insert wrapped _ 3 (some 0) _ _ _ _) >>= _ = _
  rw [if_neg (by omega), hinsert]
  rfl

/-- Next to a single allocation `[a, b)` with a free range on one side, the promise gives a place there. -/
theorem single_meets {a b lb ub x : Int} {presize : Nat} {tmpsize : Int}
    {r : Option (Tree τ ι × Nat)} (hm : AllocateMeets (Tree.single a b) [0] lb ub presize tmpsize false r)
    (hlower : lb - presize ≤ x) (hupper : x + (presize + tmpsize) ≤ ub + tmpsize)
    (hfree : b ≤ x ∨ x + (presize + tmpsize) ≤ a) :
    ∃ LB, SameSpace lb LB ∧ SameSpace lb (LB + (presize + tmpsize)) ∧ lb ≤ LB + presize ∧
      LB + presize ≤ ub ∧ (b ≤ LB ∨ LB + (presize + tmpsize) ≤ a) := by
  cases r with
  | none =>
      refine absurd ⟨x, hlower, hupper, fun m hm => ?_⟩ (hm rfl)
      obtain rfl : m = 0 := by simpa using hm
      exact hfree
  | some r =>
      have hentry := hm.entry
      have hlb := hm.lower
      have hub := hm.upper
      have hend : (r.1.heap.alloc r.2).ub = (r.1.heap.alloc r.2).lb + (presize + tmpsize) := by
        have := hm.size
        omega
      have hspace := hm.space
      have hdis := hm.disjoint 0 (by simp)
      rw [hend] at hspace hdis
      exact ⟨_, hspace.1, hspace.2, by omega, by omega, hdis⟩

end E9Patch
