import E9Patch.AllocReach

/-!
Whole runs of the allocator. Every `allocate`, `reserve` and `deallocate` whose range is in reach takes
a balanced tree over the live allocations to one, so that after any sequence of such calls the tree is
the interval tree it is meant to be, the iterator visits the live allocations in ascending order and
`find` is exact. Out of reach a difference overflows, and a node may be put onto another one.
-/

namespace E9Patch
open PtrTree PtrTree.Shape RedBlack Intervals Fallible

variable {τ ι : Type}

/-- A call of the allocator. `presize` and `tmpsize` are the sizes that `allocate` computes for its
trampoline and instruction. -/
inductive Call (τ ι : Type) where
  | allocate (option_Oorder : Bool) (lb ub : Int) (presize : Nat) (tmpsize : Int) (T : Option τ)
      (I : Option ι) (same_page : Bool)
  | reserve (lb ub : Int)
  | deallocate (a : Option Nat)

/-- The allocator, and the allocations that were made and not yet freed. -/
structure Session (τ ι : Type) where
  tree : Tree τ ι
  live : List Nat

/-- One call, as compiled. A failed call changes nothing; only live allocations can be passed to
`deallocate`. -/
def Session.step (s : Session τ ι) : Call τ ι → Session τ ι
  | .allocate order lb ub presize tmpsize T I same_page =>
    match s.tree.allocate wrapped order lb ub presize tmpsize T I same_page with
    | .ok (some (t, n)) => ⟨t, n :: s.live⟩
    | _ => s
  | .reserve lb ub =>
    match s.tree.reserve wrapped lb ub with
    | .ok (some (t, n)) => ⟨t, n :: s.live⟩
    | _ => s
  | .deallocate none => ⟨s.tree.deallocate none, s.live⟩
  | .deallocate (some n) =>
    if n ∈ s.live then ⟨s.tree.deallocate (some n), s.live.erase n⟩ else s

def Session.run (s : Session τ ι) (calls : List (Call τ ι)) : Session τ ι := calls.foldl Session.step s

def Session.new : Session τ ι := ⟨Tree.empty, []⟩

/-- The range that a call asks for, with the prologue and the template or rounded to pages, is in reach. -/
def Call.Near (s : Session τ ι) : Call τ ι → Prop
  | .allocate _ lb ub presize tmpsize _ _ _ => InReach s.tree.heap s.live (lb - presize) (ub + tmpsize)
  | .reserve lb ub => InReach s.tree.heap s.live (lb - lb % PAGE_SIZE)
      (ub + (if ub % PAGE_SIZE = 0 then 0 else PAGE_SIZE - ub % PAGE_SIZE))
  | .deallocate _ => True

instance (s : Session τ ι) (call : Call τ ι) : Decidable (call.Near s) := by
  cases call <;> unfold Call.Near <;> infer_instance

/-- Every call of the run is near to what is live when it is made. -/
def Session.NearRun : Session τ ι → List (Call τ ι) → Prop
  | _, [] => True
  | s, call :: calls => call.Near s ∧ (s.step call).NearRun calls

instance (s : Session τ ι) (calls : List (Call τ ι)) : Decidable (s.NearRun calls) := by
  induction calls generalizing s with
  | nil => exact instDecidableTrue
  | cons call calls ih =>
      have := ih (s.step call)
      exact instDecidableAnd

/-- The state between two calls. -/
def Session.Ok (s : Session τ ι) : Prop := ∃ ids, Balanced s.tree ids ∧ ids.Perm s.live

/-! ### The steps -/

theorem Heap.Aug.of_eq {h h' : Heap τ ι} {s : Shape Nat} (ha : h.Aug s) (hlo : h'.lo = h.lo)
    (hhi : h'.hi = h.hi) (hlb : h'.lb = h.lb) (hub : h'.ub = h.ub) (hgap : h'.gap = h.gap) :
    h'.Aug s := by
  induction s with
  | nil => trivial
  | node l x r ihl ihr =>
      obtain ⟨h1, h2, h3⟩ := ha
      refine ⟨?_, ihl h2, ihr h3⟩
      unfold Heap.AugAt
      rw [hlo, hhi, hlb, hub, hgap]
      exact h1

theorem setAlloc_lo_hi (t : Tree τ ι) (n : Nat) (T : Option τ) (I : Option ι) (entry : Nat) :
    (t.setAlloc n T I entry).heap.lo = t.heap.lo ∧ (t.setAlloc n T I entry).heap.hi = t.heap.hi := by
  constructor <;> funext z <;> by_cases hz : z = n <;>
    simp [Tree.setAlloc, Heap.lo, Heap.hi, hz]

theorem setAlloc_balanced {t : Tree τ ι} {ids : List Nat} (hb : Balanced t ids) (n : Nat)
    (T : Option τ) (I : Option ι) (entry : Nat) : Balanced (t.setAlloc n T I entry) ids := by
  obtain ⟨s, hv, hrb, hi⟩ := hb
  obtain ⟨hlo, hhi⟩ := setAlloc_lo_hi t n T I entry
  refine ⟨s, ⟨⟨hv.root, hv.holds, hv.nodup, hv.fresh, ?_⟩, ?_⟩, hrb, hi⟩
  · exact hv.ordered.congr fun z _ => ⟨congrFun hlo z, congrFun hhi z⟩
  · exact hv.aug.of_eq hlo hhi rfl rfl rfl

/-- `n` is a new allocation with the record `a`; all others are as before. -/
structure Added (t t' : Tree τ ι) (ids : List Nat) (n : Nat) (a : Alloc τ ι) : Prop where
  balanced : ∃ ids', Balanced t' ids' ∧ ids'.Perm (n :: ids)
  new : n ∉ ids
  alloc : t'.heap.alloc = fun z => if z = n then a else t.heap.alloc z

/-- A node that `insert` placed, after `grow`. -/
theorem insert_grow {t : Tree τ ι} {ids : List Nat} {fuel : Nat} {lb ub : Int} {size : Nat}
    {flags : Flags} {h : Heap τ ι} {n : Nat} (hb : Balanced t ids)
    (hins : t.heap.insert checked fuel t.root lb ub size flags = .ok (some (h, n)))
    (hlb : INTPTR_MIN ≤ lb) (hub : ub ≤ INTPTR_MAX) :
    ∃ LB, lb ≤ LB ∧ LB + size ≤ ub ∧ h.alloc n = ⟨LB, LB + size, none, none, 0⟩ ∧
      Added t (t.grow h n) ids n ⟨LB, LB + size, none, none, 0⟩ := by
  obtain ⟨s, hv, hrb, rfl⟩ := hb
  rw [hv.root] at hins
  obtain ⟨c, LB, rfl, hres, h1, h2, h3, h4⟩ :=
    insert_spec ⟨hv.holds, hv.ordered, hv.fresh⟩ hlb hub hins
  cases hres
  have hLU : LB ≤ LB + size := by omega
  obtain ⟨hg, halloc, -⟩ := grow_spec hv hrb hLU (by omega) (by omega) h3 h4
  refine ⟨LB, h1, h2, if_pos rfl, ⟨_, hg, ?_⟩, fun hmem => Nat.lt_irrefl _ (hv.fresh _ hmem), halloc⟩
  rw [inorder_plug]
  simp

theorem Added.setAlloc {t t' : Tree τ ι} {ids : List Nat} {n : Nat} {a : Alloc τ ι}
    (h : Added t t' ids n a) (T : Option τ) (I : Option ι) (entry : Nat) :
    Added t (t'.setAlloc n T I entry) ids n ⟨a.lb, a.ub, I, T, entry⟩ := by
  obtain ⟨⟨ids', hb, hp⟩, hnew, halloc⟩ := h
  refine ⟨⟨ids', setAlloc_balanced hb _ _ _ _, hp⟩, hnew, ?_⟩
  funext z
  by_cases hz : z = n <;> simp [Tree.setAlloc, halloc, hz]

/-- What a successful `allocate` does: one insertion, with the same lower bound and an upper bound
that `-Oorder` may lower. -/
theorem allocate_cases {t t' : Tree τ ι} {order : Bool} {lb ub : Int} {presize : Nat} {tmpsize : Int}
    {T : Option τ} {I : Option ι} {same_page : Bool} {n : Nat}
    (h : t.allocate checked order lb ub presize tmpsize T I same_page = .ok (some (t', n))) :
    verify lb (ub + TRAMPOLINE_MAX) ∧ 0 ≤ tmpsize ∧ INTPTR_MIN ≤ lb - presize ∧
      ∃ UB flags h', UB ≤ ub + tmpsize ∧ UB ≤ INTPTR_MAX ∧ flags.same_page = same_page ∧
        t.heap.insert checked (2 * t.heap.fresh + 1) t.root (lb - presize) UB (presize + tmpsize.toNat)
          flags = .ok (some (h', n)) ∧
        t' = (t.grow h' n).setAlloc n T I presize := by
  unfold Tree.allocate at h
  split at h
  · cases h
  · rename_i hver
    split at h
    · cases h
    · rename_i htmp
      obtain ⟨_, hlb, h⟩ := bind_ok.mp h
      obtain ⟨rfl, hmin, -⟩ := checked_ok.mp hlb
      obtain ⟨_, hub, h⟩ := bind_ok.mp h
      obtain ⟨rfl, -, hmax⟩ := checked_ok.mp hub
      obtain ⟨o, ho, h⟩ := bind_ok.mp h
      refine ⟨by simpa using hver, by omega, hmin, ?_⟩
      cases o with
      | none => cases h
      | some r =>
          simp only [Except.ok.injEq, Option.some.injEq, Prod.mk.injEq] at h
          obtain ⟨rfl, rfl⟩ := h
          rcases orNull_ok.mp ho with h1 | ⟨-, h1⟩
          · split at h1
            · rename_i horder
              exact ⟨_, _, r.1, by omega, by omega, rfl, h1, rfl⟩
            · cases h1
          · exact ⟨_, _, r.1, by omega, hmax, rfl, h1, rfl⟩

/-- A successful `allocate`: the entry point, which is behind the prologue, is within `[lb, ub]`. -/
theorem allocate_ok {t t' : Tree τ ι} {ids : List Nat} {order : Bool} {lb ub : Int} {presize : Nat}
    {tmpsize : Int} {T : Option τ} {I : Option ι} {same_page : Bool} {n : Nat} (hb : Balanced t ids)
    (h : t.allocate checked order lb ub presize tmpsize T I same_page = .ok (some (t', n))) :
    ∃ LB, lb ≤ LB + presize ∧ LB + presize ≤ ub ∧ 0 ≤ tmpsize ∧
      Added t t' ids n ⟨LB, LB + (presize + tmpsize.toNat : Nat), I, T, presize⟩ := by
  obtain ⟨-, htmp, hmin, UB, flags, h', hUB, hmax, -, hins, rfl⟩ := allocate_cases h
  obtain ⟨LB, h1, h2, -, h3⟩ := insert_grow hb hins hmin hmax
  exact ⟨LB, by omega, by omega, htmp, h3.setAlloc _ _ _⟩

/-- What a reservation of whole pages does: one insertion, of the whole range. -/
theorem reservePages_cases {t t' : Tree τ ι} {lb ub : Int} {n : Nat}
    (h : t.reservePages checked lb ub = .ok (some (t', n))) :
    ∃ (size : Nat) (flags : Flags) (h' : Heap τ ι), (size : Int) = ub - lb ∧
      t.heap.insert checked (2 * t.heap.fresh + 1) t.root lb ub size flags = .ok (some (h', n)) ∧
      t' = (t.grow h' n).setAlloc n none none (h'.alloc n).entry := by
  obtain ⟨room, hroom, h⟩ := bind_ok.mp h
  obtain ⟨rfl, -⟩ := checked_ok.mp hroom
  split at h
  · cases h
  · obtain ⟨o, ho, h⟩ := bind_ok.mp h
    cases o with
    | none => cases h
    | some r =>
        simp only [Except.ok.injEq, Option.some.injEq, Prod.mk.injEq] at h
        obtain ⟨rfl, rfl⟩ := h
        exact ⟨_, _, r.1, Int.toNat_of_nonneg (by omega), ho, rfl⟩

/-- What a successful `reserve` does: the range is widened to whole pages, which are within `intptr_t`. -/
theorem reserve_cases {t t' : Tree τ ι} {lb ub : Int} {n : Nat}
    (h : t.reserve checked lb ub = .ok (some (t', n))) :
    ∃ LB UB, LB = lb - lb % PAGE_SIZE ∧
      UB = ub + (if ub % PAGE_SIZE = 0 then 0 else PAGE_SIZE - ub % PAGE_SIZE) ∧ verify lb ub ∧
      INTPTR_MIN ≤ LB ∧ UB ≤ INTPTR_MAX ∧ t.reservePages checked LB UB = .ok (some (t', n)) := by
  unfold Tree.reserve at h
  split at h
  · cases h
  · rename_i hver
    have hver' : verify lb ub := by simpa using hver
    obtain ⟨hmin, -, hmax⟩ := verify_range hver'
    refine ⟨_, _, rfl, rfl, hver', ?_, ?_, h⟩
    · simp only [INTPTR_MIN, RELATIVE_ADDRESS_MIN, PAGE_SIZE] at *
      omega
    · simp only [INTPTR_MAX, ABSOLUTE_ADDRESS_MAX, PAGE_SIZE] at *
      omega

/-- A reservation is rounded outwards to whole pages. -/
theorem reserve_ok {t t' : Tree τ ι} {ids : List Nat} {lb ub : Int} {n : Nat} (hb : Balanced t ids)
    (h : t.reserve checked lb ub = .ok (some (t', n))) :
    RELATIVE_ADDRESS_MIN ≤ lb ∧ lb ≤ ub ∧ ∃ entry, Added t t' ids n ⟨lb - lb % PAGE_SIZE,
      ub + (if ub % PAGE_SIZE = 0 then 0 else PAGE_SIZE - ub % PAGE_SIZE), none, none, entry⟩ := by
  obtain ⟨LB, UB, hLB, hUB, hver, hmin, hmax, h⟩ := reserve_cases h
  obtain ⟨size, flags, h', hsize, hins, rfl⟩ := reservePages_cases h
  obtain ⟨hlow, hle, -⟩ := verify_range hver
  refine ⟨hlow, hle, ?_⟩
  obtain ⟨LB', h1, h2, -, h3⟩ := insert_grow hb hins hmin hmax
  obtain rfl : LB' = LB := by omega
  obtain rfl : LB' + size = UB := by omega
  rw [← hLB, ← hUB]
  exact ⟨_, h3.setAlloc _ _ _⟩

/-- Every node of a tree is the root of a subtree of it. -/
theorem exists_plug {s : Shape Nat} {x : Nat} (hx : x ∈ s.inorder) :
    ∃ l r c, s = plug (node l x r) c := by
  induction s with
  | nil => cases hx
  | node l y r ihl ihr =>
      simp only [inorder_node, List.mem_append, List.mem_cons] at hx
      rcases hx with hx | rfl | hx
      · obtain ⟨l', r', c, rfl⟩ := ihl hx
        exact ⟨l', r', c ++ [⟨.left, y, r⟩], by rw [plug_append]; rfl⟩
      · exact ⟨l, r, [], rfl⟩
      · obtain ⟨l', r', c, rfl⟩ := ihr hx
        exact ⟨l', r', c ++ [⟨.right, y, l⟩], by rw [plug_append]; rfl⟩

theorem remove_ok {t : Tree τ ι} {ids : List Nat} {n : Nat} (hb : Balanced t ids) (hn : n ∈ ids) :
    ∃ ids', Balanced (t.remove n) ids' ∧ (n :: ids').Perm ids ∧
      (t.remove n).heap.alloc = t.heap.alloc := by
  obtain ⟨s, hv, hrb, rfl⟩ := hb
  obtain ⟨l, r, c, rfl⟩ := exists_plug hn
  refine ⟨_, (remove_spec hv hrb).1, ?_, (remove_spec hv hrb).2.alloc⟩
  rw [inorder_plug, inorder_node]
  have := (@List.perm_middle _ n (c.before ++ l.inorder) (r.inorder ++ c.after)).symm
  simpa using this

theorem InReach.perm {h : Heap τ ι} {ids ids' : List Nat} {lb ub : Int} (hr : InReach h ids' lb ub)
    (hp : ids.Perm ids') : InReach h ids lb ub :=
  hr.subset fun _ hm => hp.mem_iff.mp hm

/-- **Step.** A call that is near keeps the tree a balanced interval tree over the live allocations. -/
theorem step_ok {s : Session τ ι} (hs : s.Ok) {call : Call τ ι} (hnear : call.Near s) : (s.step call).Ok := by
  obtain ⟨ids, hb, hp⟩ := hs
  cases call with
  | allocate order lb ub presize tmpsize T I same_page =>
      obtain ⟨r, hr⟩ := allocate_defined order T I same_page hb
        fun _ _ => hnear.perm hp
      simp only [Session.step, allocate_refines _ _ _ _ _ _ _ _ _ r hr]
      cases r with
      | none => exact ⟨ids, hb, hp⟩
      | some r =>
          obtain ⟨LB, -, -, -, ⟨ids', h1, h2⟩, -, -⟩ := allocate_ok hb hr
          exact ⟨ids', h1, h2.trans (hp.cons r.2)⟩
  | reserve lb ub =>
      obtain ⟨r, hr⟩ := reserve_defined hb fun _ => hnear.perm hp
      simp only [Session.step, reserve_refines _ _ _ r hr]
      cases r with
      | none => exact ⟨ids, hb, hp⟩
      | some r =>
          obtain ⟨-, -, entry, ⟨ids', h1, h2⟩, -, -⟩ := reserve_ok hb hr
          exact ⟨ids', h1, h2.trans (hp.cons r.2)⟩
  | deallocate a =>
      cases a with
      | none => exact ⟨ids, hb, hp⟩
      | some n =>
          simp only [Session.step]
          split
          · rename_i hn
            obtain ⟨ids', h1, h2, -⟩ := remove_ok hb (hp.mem_iff.mpr hn)
            refine ⟨ids', h1, ?_⟩
            have h3 := (h2.trans hp).trans (List.perm_cons_erase hn)
            exact (List.perm_cons n).mp h3
          · exact ⟨ids, hb, hp⟩

theorem empty_balanced : Balanced (Tree.empty : Tree τ ι) [] :=
  ⟨.nil, ⟨⟨rfl, trivial, List.nodup_nil, by simp, ⟨by simp [Sorted], by simp⟩⟩, trivial⟩,
    ⟨isBlack_none _, 0, rfl⟩, rfl⟩

/-- **Run.** The same over any sequence of such calls. -/
theorem run_ok {s : Session τ ι} (hs : s.Ok) {calls : List (Call τ ι)} (hnear : s.NearRun calls) :
    (s.run calls).Ok := by
  induction calls generalizing s with
  | nil => exact hs
  | cons call calls ih => exact ih (step_ok hs hnear.1) hnear.2

/-! ### Iterators -/

theorem nextUp_spec {h : Heap τ ι} {s : Shape Nat} {c : Ctx Nat} {n fuel : Nat}
    (hh : h.Holds none (plug s c)) (hnd : (plug s c).inorder.Nodup) (hn : s.root = some n)
    (hf : c.length < fuel) : Tree.nextUp h fuel n = (Ctx.after c).head? := by
  induction c generalizing s n fuel with
  | nil =>
      obtain ⟨fuel, rfl⟩ : ∃ k, fuel = k + 1 := ⟨fuel - 1, by simp at hf; omega⟩
      have hp : h.parent n = none := Store.Holds.parent_root hh hn
      simp [Tree.nextUp, hp, Ctx.after]
  | cons f c ih =>
      obtain ⟨fuel, rfl⟩ : ∃ k, fuel = k + 1 := ⟨fuel - 1, by simp at hf; omega⟩
      obtain ⟨hs, -, hc, hc', -⟩ := Store.holds_plug.mp hh
      have hp : h.parent n = some f.id := hs.parent_root hn
      obtain ⟨d, p, sib⟩ := f
      cases d with
      | left => simp [Tree.nextUp, hp, hc.trans hn, Ctx.after]
      | right =>
          have hne : h.child .left p ≠ some n := by
            rw [show h.child .left p = sib.root from hc', ← hn]
            exact root_ne_of_nodup hnd hn
          have := ih hh hnd (root_join _ _ _ _) (by simpa using hf)
          simpa [Tree.nextUp, hp, hne, Ctx.after] using this

theorem leftmost_head {h : Heap τ ι} {s : Shape Nat} {p : Option Nat} {fuel : Nat}
    (hh : h.Holds p s) (hf : s.size ≤ fuel + 1) :
    s.root.map (Tree.leftmost h fuel) = s.inorder.head? := by
  cases hr : s.root with
  | none =>
      cases s with
      | nil => rfl
      | node l x r => cases hr
  | some r =>
      obtain ⟨n, ch, cr, rfl, h2, h3⟩ := leftmost_spec hh hr hf
      rw [inorder_leftmost h3, Option.map_some, h2]
      rfl

theorem size_le_fresh {t : Tree τ ι} {s : Shape Nat} (hl : Linked t s) : s.size ≤ t.heap.fresh := by
  rw [← length_inorder]
  exact length_le_of_lt hl.nodup hl.fresh

/-- `next` gives the node that follows in order. -/
theorem next_spec {t : Tree τ ι} {l r : Shape Nat} {x : Nat} {c : Ctx Nat}
    (hl : Linked t (plug (node l x r) c)) : t.next x = (r.inorder ++ Ctx.after c).head? := by
  have hsz := size_le_fresh hl
  rw [size_plug, size_node] at hsz
  obtain ⟨-, -, hcr, -, hr⟩ := (Store.holds_plug.mp hl.holds).1
  cases r with
  | nil =>
      have hlen := Nat.lt_succ_of_le (length_ctx_le hl)
      have := nextUp_spec hl.holds hl.nodup rfl hlen
      simpa [Tree.next, hcr] using this
  | node r₁ y r₂ =>
      have hf : (node r₁ y r₂).size ≤ t.heap.fresh + 1 := by omega
      have := leftmost_head hr hf
      rw [root_node, Option.map_some] at this
      simp only [Tree.next, hcr, root_node, this]
      simp [List.head?_append]

theorem tail_unique {α : Type} {as as' bs bs' : List α} {x : α}
    (h : as ++ x :: bs = as' ++ x :: bs') (hn : (as ++ x :: bs).Nodup) : bs = bs' := by
  induction as generalizing as' with
  | nil =>
      cases as' with
      | nil => simpa using h
      | cons a as' =>
          simp only [List.nil_append, List.cons_append, List.cons.injEq] at h
          obtain ⟨rfl, rfl⟩ := h
          simp at hn
  | cons a as ih =>
      cases as' with
      | nil =>
          simp only [List.nil_append, List.cons_append, List.cons.injEq] at h
          obtain ⟨rfl, -⟩ := h
          simp at hn
      | cons b as' =>
          simp only [List.cons_append, List.cons.injEq] at h
          exact ih h.2 (List.nodup_cons.mp hn).2

theorem visit_spec {t : Tree τ ι} {s : Shape Nat} (hl : Linked t s) {as bs : List Nat} {fuel : Nat}
    (hs : s.inorder = as ++ bs) (hf : bs.length ≤ fuel) : t.visit fuel bs.head? = bs := by
  induction bs generalizing as fuel with
  | nil => cases fuel <;> rfl
  | cons x bs ih =>
      obtain ⟨fuel, rfl⟩ : ∃ k, fuel = k + 1 := ⟨fuel - 1, by simp at hf; omega⟩
      obtain ⟨l, r, c, rfl⟩ := exists_plug (s := s) (x := x) (by simp [hs])
      have hnext : t.next x = bs.head? := by
        rw [next_spec hl]
        congr 1
        have h1 := hl.nodup
        rw [inorder_plug, inorder_node] at hs h1
        simp only [List.append_assoc, List.cons_append] at hs h1
        rw [← List.append_assoc] at hs h1
        exact tail_unique hs h1
      simp only [List.head?_cons, Tree.visit, hnext]
      have hs' : (plug (node l x r) c).inorder = (as ++ [x]) ++ bs := by simpa using hs
      rw [ih hs' (by simpa using hf)]

theorem first_spec {t : Tree τ ι} {s : Shape Nat} (hl : Linked t s) : t.first = s.inorder.head? := by
  have hf : s.size ≤ t.heap.fresh + 1 := Nat.le_succ_of_le (size_le_fresh hl)
  have := leftmost_head hl.holds hf
  rw [← this, ← hl.root]
  cases hr : t.root <;> simp [Tree.first, hr]

/-- `find` gives the node whose interval holds the address, if there is one. -/
theorem findFrom_spec {h : Heap τ ι} {s : Shape Nat} {p : Option Nat} {addr : Int} {fuel : Nat}
    (hh : h.Holds p s) (hs : Sorted h.lo h.hi s.inorder) (hf : s.size ≤ fuel) {n : Nat} :
    Tree.findFrom h addr fuel s.root = some n ↔
      n ∈ s.inorder ∧ h.lo n ≤ addr ∧ addr < h.hi n := by
  induction s generalizing p fuel with
  | nil => cases fuel <;> simp [Tree.findFrom]
  | node l x r ihl ihr =>
      obtain ⟨fuel, rfl⟩ : ∃ k, fuel = k + 1 := ⟨fuel - 1, by simp at hf; omega⟩
      obtain ⟨-, hcl, hcr, hhl, hhr⟩ := hh
      obtain ⟨hsl, hsx, hlx⟩ := sorted_append.mp hs
      obtain ⟨hx, hxr, hsr⟩ := sorted_cons.mp hsx
      rw [size_node] at hf
      have hlo : (h.alloc x).lb = h.lo x := rfl
      have hhi : (h.alloc x).ub = h.hi x := rfl
      simp only [root_node, Tree.findFrom, hcl, hcr, hlo, hhi, inorder_node, List.mem_append,
        List.mem_cons]
      by_cases h1 : addr < h.lo x
      · rw [if_pos h1, ihl hhl hsl (by omega)]
        constructor
        · exact fun ⟨hm, hb⟩ => ⟨Or.inl hm, hb⟩
        · rintro ⟨hm | rfl | hm, hb1, hb2⟩
          · exact ⟨hm, hb1, hb2⟩
          · omega
          · have := hxr n hm
            omega
      · rw [if_neg h1]
        by_cases h2 : addr ≥ h.hi x
        · rw [if_pos h2, ihr hhr hsr (by omega)]
          constructor
          · exact fun ⟨hm, hb⟩ => ⟨Or.inr (Or.inr hm), hb⟩
          · rintro ⟨hm | rfl | hm, hb1, hb2⟩
            · have := hlx n hm x (by simp)
              omega
            · omega
            · exact ⟨hm, hb1, hb2⟩
        · rw [if_neg h2]
          constructor
          · intro he
            obtain rfl : x = n := by simpa using he
            exact ⟨Or.inr (Or.inl rfl), by omega, by omega⟩
          · rintro ⟨hm | rfl | hm, hb1, hb2⟩
            · have := hlx n hm x (by simp)
              omega
            · rfl
            · have := hxr n hm
              omega

/-- The interval tree as its users see it. -/
structure IntervalTree (t : Tree τ ι) (live : List Nat) (s : Shape Nat) : Prop where
  root : t.root = s.root
  links : t.heap.Holds none s
  nodup : s.inorder.Nodup
  redBlack : RBTree t.heap.color s
  sorted : Sorted t.heap.lo t.heap.hi s.inorder
  augmented : t.heap.Aug s
  perm : s.inorder.Perm live
  visit : t.visit (t.heap.fresh + 1) t.first = s.inorder
  find : ∀ addr n, t.find addr = some n ↔ n ∈ live ∧ t.heap.lo n ≤ addr ∧ addr < t.heap.hi n

/-- **Representation invariant.** After any sequence of calls from the empty allocator, each with its range
in reach, the tree is a red-black tree with consistent links over the live allocations, in ascending order
and disjoint, the kept bounds and gaps are right, the iterator visits each live allocation once and in
order, and `find` finds the allocation of an address exactly when there is one. -/
theorem allocator_invariant {calls : List (Call τ ι)} (hnear : Session.new.NearRun calls) :
    ∃ s, IntervalTree (Session.new.run calls).tree (Session.new.run calls).live s := by
  have hok : (Session.new.run calls : Session τ ι).Ok := run_ok ⟨[], empty_balanced, .refl _⟩ hnear
  obtain ⟨_, ⟨s, hv, hrb, rfl⟩, hp⟩ := hok
  have hsz := size_le_fresh hv.toLinked
  refine ⟨s, hv.root, hv.holds, hv.nodup, hrb, hv.ordered.1, hv.aug, hp, ?_, fun addr n => ?_⟩
  · rw [first_spec hv.toLinked]
    exact visit_spec hv.toLinked (List.nil_append _).symm (by rw [length_inorder]; omega)
  · rw [← hp.mem_iff, Tree.find, hv.root]
    exact findFrom_spec hv.holds hv.ordered.1 (by omega)

/-- Absolute and relative reservations, a trampoline between them, and what is left when it is freed. -/
def nearCalls : List (Call Nat Nat) :=
  [.reserve 0x6000000000400000 0x6000000000401000, .reserve (-0x10000) 0,
    .allocate false 0x400000 0x500000 5 32 none none true, .reserve 0x6000000000010000 0x6000000000011000,
    .deallocate (some 2)]

theorem nearCalls_invariant :
    ∃ s, IntervalTree (Session.new.run nearCalls).tree (Session.new.run nearCalls).live s :=
  allocator_invariant (by decide +kernel)

/-- Three absolute reservations, and a relative one at the other end of the address space. -/
def farCalls : List (Call Nat Nat) :=
  [.reserve 0x6000000000400000 0x6000000000401000, .reserve 0x6000000000010000 0x6000000000011000,
    .reserve 0x6000000000402000 0x6000000000403000, .reserve (-0x1FFFFFFFFFFF0000) (-0x1FFFFFFFFFFEE000)]

/-- The last one is put onto the third: between the absolute allocations the difference of its upper bound
and theirs is below `-2 ^ 63`, and so large when it is computed. -/
theorem farCalls_overlap :
    ¬∀ calls : List (Call Nat Nat), ∃ s, IntervalTree (Session.new.run calls).tree (Session.new.run calls).live s := by
  intro h
  obtain ⟨s, hs⟩ := h farCalls
  have hrun : (Session.new.run farCalls).live = [3, 2, 1, 0] ∧
      (Session.new.run farCalls).tree.heap.lo 3 < (Session.new.run farCalls).tree.heap.hi 2 ∧
      (Session.new.run farCalls).tree.heap.lo 2 < (Session.new.run farCalls).tree.heap.hi 3 := by decide +kernel
  obtain ⟨hlive, h1, h2⟩ := hrun
  have hmem : ∀ n, n ∈ s.inorder ↔ n ∈ [3, 2, 1, 0] := fun n => hlive ▸ hs.perm.mem_iff
  have := hs.sorted.disjoint ((hmem 3).mpr (by simp)) ((hmem 2).mpr (by simp)) (by decide)
  omega

end E9Patch
