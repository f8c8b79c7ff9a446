import E9Patch.AllocBalance
import E9Patch.Fallible

/-!
Insertion. Whatever the gaps say, a node that `insert` makes lies within the range asked for and
between its neighbours, since the range is clipped at every node on the way down, as long as no
difference overflows. `place` is the heap with the new node in the hole of a context; `fixUp` and the
rebalancing loop then give a balanced tree.
-/

namespace E9Patch
open PtrTree PtrTree.Shape RedBlack Intervals Bytes Fallible

variable {τ ι : Type}

/-- The heap after a new node for `[LB, UB)` is hung into the hole of `c`. -/
def Heap.place (h : Heap τ ι) (c : Ctx Nat) (LB UB : Int) : Heap τ ι :=
  { h with
    child := fun d z => if z = h.fresh then none
      else match c with
        | [] => h.child d z
        | f :: _ => if d = f.dir ∧ z = f.id then some h.fresh else h.child d z
    parent := fun z => if z = h.fresh then Ctx.above c else h.parent z
    alloc := fun z => if z = h.fresh then ⟨LB, UB, none, none, 0⟩ else h.alloc z
    gap := fun z => if z = h.fresh then 0 else h.gap z
    color := paint h.color h.fresh .red
    lb := fun z => if z = h.fresh then LB else h.lb z
    ub := fun z => if z = h.fresh then UB else h.ub z
    fresh := h.fresh + 1 }

/-- The new node of `size` bytes lies in `[lb, ub]` and in a hole of `s` where it keeps the order. -/
def Placed (h : Heap τ ι) (s : Shape Nat) (lb ub : Int) (size : Nat) (r : Heap τ ι × Nat) : Prop :=
  ∃ c LB, s = plug .nil c ∧ r = (h.place c LB (LB + size), h.fresh) ∧ lb ≤ LB ∧ LB + size ≤ ub ∧
    (∀ z ∈ Ctx.before c, h.hi z ≤ LB) ∧ ∀ z ∈ Ctx.after c, LB + size ≤ h.lo z

theorem Heap.place_append (h : Heap τ ι) {c : Ctx Nat} (c' : Ctx Nat) (LB UB : Int) (hc : c ≠ []) :
    h.place (c ++ c') LB UB = h.place c LB UB := by
  cases c with
  | nil => exact absurd rfl hc
  | cons f c => rfl

/-! ### The search without an overflow -/

theorem checked_ok {x y : Int} : checked x = .ok y ↔ y = x ∧ INTPTR_MIN ≤ x ∧ x ≤ INTPTR_MAX := by
  unfold checked
  split <;> grind

theorem orNull_ok {α : Type} {n m : Except Overflow (Option α)} {a : α} :
    orNull n m = .ok (some a) ↔ n = .ok (some a) ∨ n = .ok none ∧ m = .ok (some a) := by
  rcases n with _ | _ | n <;> simp [orNull]

/-- `[lb, ub]` is within `intptr_t` and has `size` bytes. -/
structure RangeFits (lb ub : Int) (size : Nat) : Prop where
  lower : INTPTR_MIN ≤ lb
  upper : ub ≤ INTPTR_MAX
  size : size ≤ ub - lb

/-- What a search of the left child does. -/
theorem insertLeftChild_ok {h : Heap τ ι} {fuel x : Nat} {lb ub : Int} {size : Nat} {flags : Flags}
    {res : Heap τ ι × Nat} (hres : h.insertLeftChild checked (fuel + 1) x lb ub size flags = .ok (some res)) :
    size ≤ min ub (h.alloc x).lb - lb ∧ ∃ flags', flags'.same_page = flags.same_page ∧
      match h.child .left x with
      | none => (h.node (some x) lb (min ub (h.alloc x).lb) size flags').map
          (fun (h, n) => (h.setChild .left x (some n), n)) = some res
      | some l => h.insert checked fuel (some l) lb (min ub (h.alloc x).lb) size flags' = .ok (some res) := by
  rw [Heap.insertLeftChild] at hres
  obtain ⟨room, hroom, hres⟩ := bind_ok.mp hres
  obtain ⟨rfl, -⟩ := checked_ok.mp hroom
  split at hres
  · cases hres
  · obtain ⟨away, -, hres⟩ := bind_ok.mp hres
    refine ⟨by omega, { flags with ub := decide (away < PAGE_SIZE) }, rfl, ?_⟩
    cases hc : h.child .left x with
    | none =>
        rw [hc] at hres
        exact Except.ok.inj hres
    | some l =>
        rw [hc] at hres
        exact hres

/-- What a search of the right child does. -/
theorem insertRightChild_ok {h : Heap τ ι} {fuel x : Nat} {lb ub : Int} {size : Nat} {flags : Flags}
    {res : Heap τ ι × Nat} (hres : h.insertRightChild checked (fuel + 1) x lb ub size flags = .ok (some res)) :
    size ≤ ub - max lb (h.alloc x).ub ∧ ∃ flags', flags'.same_page = flags.same_page ∧
      match h.child .right x with
      | none => (h.node (some x) (max lb (h.alloc x).ub) ub size flags').map
          (fun (h, n) => (h.setChild .right x (some n), n)) = some res
      | some r => h.insert checked fuel (some r) (max lb (h.alloc x).ub) ub size flags' = .ok (some res) := by
  rw [Heap.insertRightChild] at hres
  obtain ⟨room, hroom, hres⟩ := bind_ok.mp hres
  obtain ⟨rfl, -⟩ := checked_ok.mp hroom
  split at hres
  · cases hres
  · obtain ⟨away, -, hres⟩ := bind_ok.mp hres
    refine ⟨by omega, { flags with lb := decide (away < PAGE_SIZE) }, rfl, ?_⟩
    cases hc : h.child .right x with
    | none =>
        rw [hc] at hres
        exact Except.ok.inj hres
    | some r =>
        rw [hc] at hres
        exact hres

/-- What a search of a tree does: it makes the root, or searches a child within the range. -/
theorem insert_ok {h : Heap τ ι} {fuel : Nat} {root : Option Nat} {lb ub : Int} {size : Nat} {flags : Flags}
    {res : Heap τ ι × Nat} (hres : h.insert checked (fuel + 1) root lb ub size flags = .ok (some res)) :
    size ≤ ub - lb ∧
      match root with
      | none => h.node none lb ub size flags = some res
      | some x => ∃ lb' ub', lb ≤ lb' ∧ ub' ≤ ub ∧
          (h.insertRightChild checked fuel x lb' ub' size flags = .ok (some res) ∨
            h.insertLeftChild checked fuel x lb' ub' size flags = .ok (some res)) := by
  unfold Heap.insert at hres
  obtain ⟨room, hroom, hres⟩ := bind_ok.mp hres
  obtain ⟨rfl, -⟩ := checked_ok.mp hroom
  split at hres
  · cases hres
  · refine ⟨by omega, ?_⟩
    cases root with
    | none => exact Except.ok.inj hres
    | some x =>
        -- the two searches with the gap and the two outside the bounds
        rcases orNull_ok.mp hres with h1 | ⟨-, h1⟩
        · rcases orNull_ok.mp h1 with h1 | ⟨-, h1⟩
          · split at h1
            · rcases orNull_ok.mp h1 with h1 | ⟨-, h1⟩
              · exact ⟨_, _, le_max_left _ _, min_le_left _ _, Or.inl h1⟩
              · exact ⟨_, _, le_max_left _ _, min_le_left _ _, Or.inr h1⟩
            · cases h1
          · split at h1
            · exact ⟨_, _, le_max_left _ _, le_refl _, Or.inl h1⟩
            · cases h1
        · split at h1
          · exact ⟨_, _, le_refl _, min_le_left _ _, Or.inr h1⟩
          · cases h1

/-! ### Where the new node is -/

theorem nodeBounds_spec {lb ub : Int} {size : Nat} {flags : Flags} {LB UB : Int}
    (h : nodeBounds lb ub size flags = some (LB, UB)) (hfit : RangeFits lb ub size) :
    lb ≤ LB ∧ UB = LB + size ∧ UB ≤ ub := by
  obtain ⟨hlb, hub, hsize⟩ := hfit
  simp only [INTPTR_MIN, INTPTR_MAX] at hlb hub
  unfold nodeBounds at h
  rw [signed64_eq (x := lb + size) (by omega) (by omega), signed64_eq (x := ub - size) (by omega) (by omega)] at h
  generalize (if flags.right = true then false else flags.lb || !flags.ub) = alloc_left at h
  simp only at h
  cases alloc_left <;> simp only [if_true, Bool.false_eq_true, if_false] at h <;> split at h
  -- the moved interval is checked against the range, the other one is at an end of it
  all_goals try split at h
  all_goals simp only [reduceCtorEq, Option.some.injEq, Prod.mk.injEq] at h
  all_goals
    obtain ⟨rfl, rfl⟩ := h
    omega

theorem Placed.mono {h : Heap τ ι} {s : Shape Nat} {lb ub lb' ub' : Int} {size : Nat}
    {r : Heap τ ι × Nat} (hp : Placed h s lb ub size r) (hlb : lb' ≤ lb) (hub : ub ≤ ub') :
    Placed h s lb' ub' size r := by
  obtain ⟨c, LB, h1, h2, h3, h4, h5⟩ := hp
  exact ⟨c, LB, h1, h2, by omega, by omega, h5⟩

/-- A node placed in the left subtree, below the node's own interval. -/
theorem Placed.left {h : Heap τ ι} {l r : Shape Nat} {x : Nat} {lb ub : Int} {size : Nat}
    {res : Heap τ ι × Nat} (ho : h.Ordered (node l x r).inorder) (hl : l ≠ .nil)
    (hp : Placed h l lb (min ub (h.lo x)) size res) : Placed h (node l x r) lb ub size res := by
  obtain ⟨c, LB, hc, hres, h1, h2, h3, h4⟩ := hp
  have hne : c ≠ [] := by
    rintro rfl
    exact hl hc
  obtain ⟨-, hsx, -⟩ := sorted_append.mp ho.1
  obtain ⟨hx, hxr, -⟩ := sorted_cons.mp hsx
  refine ⟨c ++ [⟨.left, x, r⟩], LB, ?_, by rw [h.place_append _ _ _ hne, hres], h1, by omega, ?_, ?_⟩
  · rw [plug_append, ← hc]
    rfl
  · intro z hz
    rw [before_append] at hz
    exact h3 z (by simpa [Ctx.before] using hz)
  · intro z hz
    simp only [after_append, Ctx.after, List.mem_append, List.mem_cons, List.append_nil] at hz
    rcases hz with hz | rfl | hz
    · exact h4 z hz
    · omega
    · have := hxr z hz
      omega

/-- A node placed in the right subtree, above the node's own interval. -/
theorem Placed.right {h : Heap τ ι} {l r : Shape Nat} {x : Nat} {lb ub : Int} {size : Nat}
    {res : Heap τ ι × Nat} (ho : h.Ordered (node l x r).inorder) (hr : r ≠ .nil)
    (hp : Placed h r (max lb (h.hi x)) ub size res) : Placed h (node l x r) lb ub size res := by
  obtain ⟨c, LB, hc, hres, h1, h2, h3, h4⟩ := hp
  have hne : c ≠ [] := by
    rintro rfl
    exact hr hc
  obtain ⟨hsl, hsx, hlx⟩ := sorted_append.mp ho.1
  obtain ⟨hx, -, -⟩ := sorted_cons.mp hsx
  refine ⟨c ++ [⟨.right, x, l⟩], LB, ?_, by rw [h.place_append _ _ _ hne, hres], by omega, h2, ?_, ?_⟩
  · rw [plug_append, ← hc]
    rfl
  · intro z hz
    simp only [before_append, Ctx.before, List.mem_append, List.mem_singleton, List.nil_append] at hz
    rcases hz with (hz | rfl) | hz
    · have := hlx z hz x (by simp)
      omega
    · omega
    · exact h3 z hz
  · intro z hz
    rw [after_append] at hz
    exact h4 z (by simpa [Ctx.after] using hz)

/-- A child that `node` makes below `x` on side `d`. -/
theorem place_single {h h' : Heap τ ι} {s : Shape Nat} {x n : Nat} {d : Dir} {lb ub : Int} {size : Nat}
    {flags : Flags} (hx : x ≠ h.fresh)
    (hn : (h.node (some x) lb ub size flags).map (fun (h, n) => (h.setChild d x (some n), n)) =
      some (h', n)) (hfit : RangeFits lb ub size) :
    n = h.fresh ∧ ∃ LB, h' = h.place [⟨d, x, s⟩] LB (LB + size) ∧ lb ≤ LB ∧ LB + size ≤ ub := by
  unfold Heap.node at hn
  split at hn
  · cases hn
  · rename_i LB UB hb
    obtain ⟨h1, rfl, h3⟩ := nodeBounds_spec hb hfit
    simp only [Option.map_some, Option.some.injEq, Prod.mk.injEq] at hn
    obtain ⟨rfl, rfl⟩ := hn
    refine ⟨rfl, LB, ?_, h1, h3⟩
    simp only [Heap.setChild, Store.setChild, Heap.place, Ctx.above_cons, Heap.mk.injEq,
      Store.mk.injEq, and_true]
    funext e z
    by_cases hz : z = h.fresh
    · have : ¬(e = d ∧ z = x) := fun he => hx (he.2.symm.trans hz)
      rw [if_neg this, if_pos hz, if_pos hz]
    · simp only [if_neg hz]

theorem place_root {h : Heap τ ι} {lb ub : Int} {size : Nat} {flags : Flags} {res : Heap τ ι × Nat}
    (hn : h.node none lb ub size flags = some res) (hfit : RangeFits lb ub size) :
    ∃ LB, res = (h.place [] LB (LB + size), h.fresh) ∧ lb ≤ LB ∧ LB + size ≤ ub := by
  unfold Heap.node at hn
  split at hn
  · cases hn
  · rename_i LB UB hb
    obtain ⟨h1, rfl, h3⟩ := nodeBounds_spec hb hfit
    cases hn
    exact ⟨LB, rfl, h1, h3⟩

/-- What the three functions need of the subtree that they insert into. -/
structure Insertable (h : Heap τ ι) (s : Shape Nat) (p : Option Nat) : Prop where
  holds : h.Holds p s
  ordered : h.Ordered s.inorder
  fresh : ∀ n ∈ s.inorder, n < h.fresh

theorem Insertable.left {h : Heap τ ι} {l r : Shape Nat} {x : Nat} {p : Option Nat}
    (hi : Insertable h (node l x r) p) : Insertable h l (some x) :=
  ⟨hi.holds.2.2.2.1, hi.ordered.of_append.1, fun n hn => hi.fresh n (by simp [hn])⟩

theorem Insertable.right {h : Heap τ ι} {l r : Shape Nat} {x : Nat} {p : Option Nat}
    (hi : Insertable h (node l x r) p) : Insertable h r (some x) :=
  ⟨hi.holds.2.2.2.2, hi.ordered.of_append.2.of_cons,
    fun n hn => hi.fresh n (by simp [hn])⟩

theorem insertLeftChild_spec {h : Heap τ ι} {fuel : Nat} {l r : Shape Nat} {x : Nat} {p : Option Nat}
    {lb ub : Int} {size : Nat} {flags : Flags} {res : Heap τ ι × Nat}
    (ih : ∀ {s p lb ub flags res}, Insertable h s p → INTPTR_MIN ≤ lb → ub ≤ INTPTR_MAX →
      h.insert checked fuel s.root lb ub size flags = .ok (some res) → Placed h s lb ub size res)
    (hi : Insertable h (node l x r) p) (hlb : INTPTR_MIN ≤ lb) (hub : ub ≤ INTPTR_MAX)
    (hres : h.insertLeftChild checked (fuel + 1) x lb ub size flags = .ok (some res)) :
    Placed h (node l x r) lb ub size res := by
  obtain ⟨hsize, flags', -, hres⟩ := insertLeftChild_ok hres
  rw [hi.holds.2.1] at hres
  have hx : x < h.fresh := hi.fresh x (by simp)
  have hub' : min ub (h.alloc x).lb ≤ INTPTR_MAX := by omega
  cases l with
  | nil =>
      obtain ⟨h', n⟩ := res
      obtain ⟨rfl, LB, rfl, h1, h2⟩ := place_single (s := r) (by omega) hres ⟨hlb, hub', hsize⟩
      obtain ⟨hx, hxr, -⟩ := sorted_cons.mp hi.ordered.1
      have hlo : h.lo x = (h.alloc x).lb := rfl
      refine ⟨_, LB, by rw [plug_cons]; rfl, rfl, h1, by omega, by simp [Ctx.before], ?_⟩
      intro z hz
      simp only [Ctx.after, List.mem_append, List.mem_cons, List.not_mem_nil, or_false] at hz
      rcases hz with rfl | hz
      · omega
      · have := hxr z hz
        omega
  | node l₁ y l₂ => exact (ih hi.left hlb hub' hres).left hi.ordered (by simp)

theorem insertRightChild_spec {h : Heap τ ι} {fuel : Nat} {l r : Shape Nat} {x : Nat} {p : Option Nat}
    {lb ub : Int} {size : Nat} {flags : Flags} {res : Heap τ ι × Nat}
    (ih : ∀ {s p lb ub flags res}, Insertable h s p → INTPTR_MIN ≤ lb → ub ≤ INTPTR_MAX →
      h.insert checked fuel s.root lb ub size flags = .ok (some res) → Placed h s lb ub size res)
    (hi : Insertable h (node l x r) p) (hlb : INTPTR_MIN ≤ lb) (hub : ub ≤ INTPTR_MAX)
    (hres : h.insertRightChild checked (fuel + 1) x lb ub size flags = .ok (some res)) :
    Placed h (node l x r) lb ub size res := by
  obtain ⟨hsize, flags', -, hres⟩ := insertRightChild_ok hres
  rw [hi.holds.2.2.1] at hres
  have hx : x < h.fresh := hi.fresh x (by simp)
  have hlb' : INTPTR_MIN ≤ max lb (h.alloc x).ub := by omega
  cases r with
  | nil =>
      obtain ⟨h', n⟩ := res
      obtain ⟨rfl, LB, rfl, h1, h2⟩ := place_single (s := l) (by omega) hres ⟨hlb', hub, hsize⟩
      obtain ⟨-, hsx, hlx⟩ := sorted_append.mp hi.ordered.1
      have hx := (sorted_cons.mp hsx).1
      have hhi : h.hi x = (h.alloc x).ub := rfl
      refine ⟨_, LB, by rw [plug_cons]; rfl, rfl, by omega, h2, ?_, by simp [Ctx.after]⟩
      intro z hz
      simp only [Ctx.before, List.mem_append, List.mem_singleton, List.nil_append] at hz
      rcases hz with hz | rfl
      · have := hlx z hz x (by simp)
        omega
      · omega
  | node r₁ y r₂ => exact (ih hi.right hlb' hub hres).right hi.ordered (by simp)

/-- **Placement.** A node that `insert` makes lies in the range asked for, in a hole of the tree where
it keeps the order. -/
theorem insert_spec {h : Heap τ ι} {fuel : Nat} {s : Shape Nat} {p : Option Nat} {lb ub : Int}
    {size : Nat} {flags : Flags} {res : Heap τ ι × Nat} (hi : Insertable h s p) (hlb : INTPTR_MIN ≤ lb)
    (hub : ub ≤ INTPTR_MAX) (hres : h.insert checked fuel s.root lb ub size flags = .ok (some res)) :
    Placed h s lb ub size res := by
  induction fuel using Nat.strong_induction_on generalizing s p lb ub flags res with
  | _ fuel ih =>
      cases fuel with
      | zero => simp [Heap.insert] at hres
      | succ fuel =>
          obtain ⟨hsize, hres⟩ := insert_ok hres
          cases s with
          | nil =>
              obtain ⟨LB, rfl, h1, h2⟩ := place_root hres ⟨hlb, hub, hsize⟩
              exact ⟨[], LB, rfl, rfl, h1, h2, by simp [Ctx.before], by simp [Ctx.after]⟩
          | node l x r =>
              obtain ⟨lb', ub', hlb', hub', hr | hl⟩ := hres
              · cases fuel with
                | zero => simp [Heap.insertRightChild] at hr
                | succ k =>
                    exact (insertRightChild_spec (ih k (by omega)) hi (by omega) (by omega) hr).mono hlb' hub'
              · cases fuel with
                | zero => simp [Heap.insertLeftChild] at hl
                | succ k =>
                    exact (insertLeftChild_spec (ih k (by omega)) hi (by omega) (by omega) hl).mono hlb' hub'

/-- The new node is one that `node` made, under the same flag. -/
theorem insert_node {h : Heap τ ι} {fuel : Nat} {root : Option Nat} {lb ub : Int} {size : Nat}
    {flags : Flags} {res : Heap τ ι × Nat} (hlb : INTPTR_MIN ≤ lb) (hub : ub ≤ INTPTR_MAX)
    (hres : h.insert checked fuel root lb ub size flags = .ok (some res)) :
    ∃ p lb' ub' flags' r, RangeFits lb' ub' size ∧ flags'.same_page = flags.same_page ∧
      h.node p lb' ub' size flags' = some r ∧ res.2 = r.2 ∧ res.1.alloc = r.1.alloc := by
  induction fuel using Nat.strong_induction_on generalizing root lb ub flags with
  | _ fuel ih =>
      have hchild : ∀ {d x lb ub flags}, RangeFits lb ub size →
          (h.node (some x) lb ub size flags).map (fun (h, n) => (h.setChild d x (some n), n)) = some res →
          ∃ p lb' ub' flags' r, RangeFits lb' ub' size ∧ flags'.same_page = flags.same_page ∧
            h.node p lb' ub' size flags' = some r ∧ res.2 = r.2 ∧ res.1.alloc = r.1.alloc := by
        intro d x lb ub flags hfit hres
        obtain ⟨r, hr, rfl⟩ := Option.map_eq_some_iff.mp hres
        exact ⟨_, _, _, _, r, hfit, rfl, hr, rfl, rfl⟩
      cases fuel with
      | zero => simp [Heap.insert] at hres
      | succ fuel =>
          obtain ⟨hsize, hres⟩ := insert_ok hres
          cases root with
          | none => exact ⟨_, _, _, _, res, ⟨hlb, hub, hsize⟩, rfl, hres, rfl, rfl⟩
          | some x =>
              obtain ⟨lb', ub', hlb', hub', hr | hl⟩ := hres
              · cases fuel with
                | zero => simp [Heap.insertRightChild] at hr
                | succ k =>
                    obtain ⟨hsize, flags', hflags, hr⟩ := insertRightChild_ok hr
                    rw [← hflags]
                    split at hr
                    · exact hchild ⟨by omega, by omega, hsize⟩ hr
                    · exact ih k (by omega) (by omega) (by omega) hr
              · cases fuel with
                | zero => simp [Heap.insertLeftChild] at hl
                | succ k =>
                    obtain ⟨hsize, flags', hflags, hl⟩ := insertLeftChild_ok hl
                    rw [← hflags]
                    split at hl
                    · exact hchild ⟨by omega, by omega, hsize⟩ hl
                    · exact ih k (by omega) (by omega) (by omega) hl

/-! ### Rebalancing after an insertion -/

theorem length_le_of_lt {ids : List Nat} {n : Nat} (hn : ids.Nodup) (hlt : ∀ z ∈ ids, z < n) :
    ids.length ≤ n := by
  have := (List.subperm_of_subset hn fun z hz => List.mem_range.mpr (hlt z hz)).length_le
  rwa [List.length_range] at this

/-- No path is longer than the number of nodes made. -/
theorem length_ctx_le {t : Tree τ ι} {s : Shape Nat} {c : Ctx Nat} (hl : Linked t (plug s c)) :
    c.length ≤ t.heap.fresh := by
  have h1 := length_le_of_lt hl.nodup hl.fresh
  have h2 := size_plug s c
  rw [← length_inorder] at h2
  have h3 := length_le_ids c
  omega

theorem place_holdsCtx {h : Heap τ ι} {c : Ctx Nat} {LB UB : Int} (hh : h.HoldsCtx none c)
    (hn : (Ctx.ids c).Nodup) (hf : ∀ z ∈ Ctx.ids c, z < h.fresh) :
    (h.place c LB UB).HoldsCtx (some h.fresh) c := by
  cases c with
  | nil => trivial
  | cons f c =>
      have hne : ∀ z ∈ Ctx.ids (f :: c), z ≠ h.fresh := fun z hz => Nat.ne_of_lt (hf z hz)
      refine hh.refill hn (fun z hz => if_neg (hne z hz)) (fun z hz d hd => ?_) ?_
      · exact (if_neg (hne z hz)).trans (if_neg hd)
      · exact (if_neg (hne _ (by simp))).trans (if_pos ⟨rfl, rfl⟩)

theorem place_linked {t : Tree τ ι} {c : Ctx Nat} {LB UB : Int} (hl : Linked t (plug .nil c))
    (hLU : LB ≤ UB) (hLB : LB ≤ INTPTR_MAX) (hUB : INTPTR_MIN ≤ UB)
    (hb : ∀ z ∈ Ctx.before c, t.heap.hi z ≤ LB) (ha : ∀ z ∈ Ctx.after c, UB ≤ t.heap.lo z) :
    Linked { root := t.root.or (some t.heap.fresh), heap := t.heap.place c LB UB }
      (plug (node .nil t.heap.fresh .nil) c) := by
  obtain ⟨-, hctx⟩ := Store.holds_plug.mp hl.holds
  have hnids : (Ctx.ids c).Nodup := (nodup_focus hl.nodup).2.1
  have hfids : ∀ z ∈ Ctx.ids c, z < t.heap.fresh := fun z hz => hl.fresh z (mem_plug.mpr (Or.inr hz))
  have hba : ∀ z, z ∈ Ctx.before c ∨ z ∈ Ctx.after c → z < t.heap.fresh := by
    intro z hz
    refine hl.fresh z ?_
    rw [inorder_plug]
    simpa using hz
  have hold : ∀ z, z < t.heap.fresh → (t.heap.place c LB UB).lo z = t.heap.lo z ∧
      (t.heap.place c LB UB).hi z = t.heap.hi z := by
    intro z hz
    have : (t.heap.place c LB UB).alloc z = t.heap.alloc z := if_neg (Nat.ne_of_lt hz)
    simp only [Heap.lo, Heap.hi, this, and_self]
  have hnew : (t.heap.place c LB UB).lo t.heap.fresh = LB ∧
      (t.heap.place c LB UB).hi t.heap.fresh = UB := by
    have : (t.heap.place c LB UB).alloc t.heap.fresh = ⟨LB, UB, none, none, 0⟩ := if_pos rfl
    simp only [Heap.lo, Heap.hi, this, and_self]
  refine ⟨?_, Store.holds_plug.mpr ⟨⟨if_pos rfl, if_pos rfl, if_pos rfl, trivial, trivial⟩,
    place_holdsCtx hctx hnids hfids⟩, ?_, ?_, ?_⟩
  · cases c with
    | nil =>
        have := hl.root
        simp only [plug_nil, root_nil] at this
        simp [this]
    | cons f c =>
        obtain ⟨r, hr, -⟩ := root_plug_cons .nil f c
        have h2 := hl.root.trans hr
        simp only [h2, Option.some_or]
        rw [← hr, plug_cons, plug_cons]
        exact root_plug_of_root c (by rw [root_join, root_join])
  · rw [nodup_plug]
    simpa using ⟨fun hm => Nat.lt_irrefl _ (hfids _ hm), hnids⟩
  · intro z hz
    have hfr : (t.heap.place c LB UB).fresh = t.heap.fresh + 1 := rfl
    simp only [hfr]
    rcases mem_plug.mp hz with hz | hz
    · obtain rfl : z = t.heap.fresh := by simpa using hz
      omega
    · have := hfids z hz
      omega
  · have hord := hl.ordered
    rw [inorder_plug] at hord ⊢
    simp only [inorder_nil, List.append_nil, inorder_node, List.nil_append, List.append_assoc,
      List.singleton_append] at hord ⊢
    obtain ⟨hsb, hsa, hsba⟩ := sorted_append.mp hord.1
    have hcongr : (t.heap.place c LB UB).Ordered (Ctx.before c ++ Ctx.after c) :=
      hord.congr fun z hz => hold z (hba z (List.mem_append.mp hz))
    obtain ⟨hsb', hsa', hsba'⟩ := sorted_append.mp hcongr.1
    refine ⟨sorted_append.mpr ⟨hsb', sorted_cons.mpr ⟨?_, ?_, hsa'⟩, ?_⟩, ?_⟩
    · rw [hnew.1, hnew.2]
      exact hLU
    · intro z hz
      rw [hnew.2, (hold z (hba z (Or.inr hz))).1]
      exact ha z hz
    · intro a ha' z hz
      rcases List.mem_cons.mp hz with rfl | hz
      · rw [hnew.1, (hold a (hba a (Or.inl ha'))).2]
        exact hb a ha'
      · exact hsba' a ha' z hz
    · intro z hz
      simp only [List.mem_append, List.mem_cons] at hz
      rcases hz with hz | rfl | hz
      · exact hcongr.2 z (by simp [hz])
      · rw [hnew.1, hnew.2]
        exact ⟨hLB, hUB⟩
      · exact hcongr.2 z (by simp [hz])

/-- **Growth.** Hanging a new node into a hole and rebalancing gives a balanced tree with that node
at its place in the order. -/
theorem grow_spec {t : Tree τ ι} {c : Ctx Nat} {LB UB : Int} (hv : Valid t (plug .nil c))
    (hrb : RBTree t.heap.color (plug .nil c)) (hLU : LB ≤ UB) (hLB : LB ≤ INTPTR_MAX)
    (hUB : INTPTR_MIN ≤ UB) (hb : ∀ z ∈ Ctx.before c, t.heap.hi z ≤ LB)
    (ha : ∀ z ∈ Ctx.after c, UB ≤ t.heap.lo z) :
    let t' := t.grow (t.heap.place c LB UB) t.heap.fresh
    Balanced t' (Ctx.before c ++ t.heap.fresh :: Ctx.after c) ∧
      t'.heap.alloc = (t.heap.place c LB UB).alloc ∧ t'.heap.fresh = t.heap.fresh + 1 := by
  intro t'
  have hl := place_linked hv.toLinked hLU hLB hUB hb ha
  obtain ⟨t₁, ht₁⟩ : ∃ t₁ : Tree τ ι, t₁ = ⟨t.root.or (some t.heap.fresh), t.heap.place c LB UB⟩ :=
    ⟨_, rfl⟩
  rw [← ht₁] at hl
  have hfresh : t₁.heap.fresh = t.heap.fresh + 1 := by rw [ht₁]; rfl
  have hlen := length_ctx_le hv.toLinked
  have hfids : ∀ z ∈ Ctx.ids c, z < t.heap.fresh := fun z hz => hv.fresh z (mem_plug.mpr (Or.inr hz))
  have hsame : ∀ z, z < t.heap.fresh → Heap.SameAt t.heap t₁.heap z := by
    intro z hz
    have hne := Nat.ne_of_lt hz
    rw [ht₁]
    exact ⟨if_neg hne, if_neg hne, if_neg hne, if_neg hne⟩
  -- the fields are fixed from the new node up
  have hsibs : t₁.heap.AugSibs (⟨.left, t.heap.fresh, .nil⟩ :: c) := by
    intro g hg
    rcases List.mem_cons.mp hg with rfl | hg
    · trivial
    · exact ((Heap.aug_plug.mp hv.aug).2.sibs g hg).congr fun z hz =>
        hsame z (hfids z (sib_mem_ids hg hz))
  have hlen₁ : (⟨.left, t.heap.fresh, .nil⟩ :: c : Ctx Nat).length ≤ t₁.heap.fresh := by
    simp only [List.length_cons]
    omega
  have haug := fixUp_aug (t := .nil) (c := ⟨.left, t.heap.fresh, .nil⟩ :: c) hl.holds hl.nodup
    hl.ordered trivial hsibs hlen₁
  obtain ⟨hf1, hf2, hf3, hf4⟩ := fixUp_frame t₁.heap t₁.heap.fresh (some t.heap.fresh)
  obtain ⟨t₂, ht₂⟩ : ∃ t₂ : Tree τ ι,
      t₂ = { t₁ with heap := t₁.heap.fixUp t₁.heap.fresh (some t.heap.fresh) } := ⟨_, rfl⟩
  have hv₂ : Valid t₂ (plug (node .nil t.heap.fresh .nil) c) := by
    rw [ht₂]
    refine ⟨⟨hl.root, by rw [hf1]; exact hl.holds, hl.nodup, ?_, hl.ordered.of_alloc hf2⟩, haug⟩
    simp only [hf4]
    exact hl.fresh
  have hcol₂ : t₂.heap.color = paint t.heap.color t.heap.fresh .red := by
    rw [ht₂, hf3, ht₁]
    rfl
  obtain ⟨-, n, hn0, hbal⟩ := rbTree_plug.mp hrb
  obtain rfl : n = 0 := hn0
  have hhot : Hot t₂.heap.color (node .nil t.heap.fresh .nil) c := by
    rw [hcol₂]
    refine ⟨⟨_, rfl, paint_self _ _ _⟩, 0, bal_join_red (d := .left) (paint_self _ _ _) rfl rfl
      (isBlack_none _) (isBlack_none _), hbal.congr fun z hz => ?_⟩
    exact paint_of_ne _ _ (Nat.ne_of_lt (hfids z hz))
  have hfr₂ : t₂.heap.fresh = t.heap.fresh + 1 := by rw [ht₂, hf4, hfresh]
  have hlt : c.length < t₂.heap.fresh := by omega
  obtain ⟨h1, h2⟩ := insertLoop_spec hv₂ hhot rfl hlt
  have ht' : t' = (Tree.insertLoop t₂.heap.fresh t₂ t.heap.fresh).blacken
      (Tree.insertLoop t₂.heap.fresh t₂ t.heap.fresh).root := by
    simp only [t', Tree.grow, Tree.rebalanceInsert, ht₂, ht₁]
  rw [ht']
  refine ⟨?_, ?_, ?_⟩
  · rw [inorder_plug] at h1
    simpa using h1
  · rw [h2.alloc, ht₂, hf2, ht₁]
  · rw [h2.fresh, hfr₂]

end E9Patch
