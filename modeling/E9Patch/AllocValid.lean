import E9Patch.AllocModel
import E9Patch.Intervals

/-!
What holds of the allocator's tree between the steps of an operation. `Linked` says that the heap
draws a shape whose allocations are in ascending order, `Aug` that the bounds and the gap kept at every
node are those of its subtree. `fix` at a node gives `Aug` there from its children, and a rotation
keeps both.
-/

namespace E9Patch
open PtrTree PtrTree.Shape RedBlack Intervals

variable {τ ι : Type}

namespace Heap

def lo (h : Heap τ ι) (n : Nat) : Int := (h.alloc n).lb
def hi (h : Heap τ ι) (n : Nat) : Int := (h.alloc n).ub

/-- The nodes' allocations are in ascending order, disjoint, and within `intptr_t`. -/
def Ordered (h : Heap τ ι) (ids : List Nat) : Prop :=
  Sorted h.lo h.hi ids ∧ ∀ n ∈ ids, h.lo n ≤ INTPTR_MAX ∧ INTPTR_MIN ≤ h.hi n

/-- The bounds and the gap kept at `x` are those of the allocations of `ids`. -/
def AugAt (h : Heap τ ι) (ids : List Nat) (x : Nat) : Prop :=
  Augmented h.lo h.hi (2 ^ 63) ids (h.lb x) (h.ub x) (h.gap x)

/-- `AugAt` for every subtree. -/
def Aug (h : Heap τ ι) : Shape Nat → Prop
  | .nil => True
  | .node l x r => h.AugAt (l.inorder ++ x :: r.inorder) x ∧ h.Aug l ∧ h.Aug r

end Heap

/-- The nodes of a frame and its hole, in order. -/
def fillIds (f : Frame Nat) (ids : List Nat) : List Nat :=
  match f.dir with
  | .left => ids ++ f.id :: f.sib.inorder
  | .right => f.sib.inorder ++ f.id :: ids

theorem inorder_join (f : Frame Nat) (t : Shape Nat) :
    (join f.dir t f.id f.sib).inorder = fillIds f t.inorder := by
  obtain ⟨d, x, s⟩ := f
  cases d <;> rfl

namespace Heap

/-- `Aug` along the path above a hole that holds the nodes `ids`. -/
def AugCtx (h : Heap τ ι) : List Nat → Ctx Nat → Prop
  | _, [] => True
  | ids, f :: c => h.AugAt (fillIds f ids) f.id ∧ h.Aug f.sib ∧ h.AugCtx (fillIds f ids) c

/-- The subtrees that hang off a path. -/
def AugSibs (h : Heap τ ι) (c : Ctx Nat) : Prop := ∀ f ∈ c, h.Aug f.sib

theorem aug_join {h : Heap τ ι} {d : Dir} {a b : Shape Nat} {x : Nat} :
    h.Aug (join d a x b) ↔ h.AugAt (join d a x b).inorder x ∧ h.Aug a ∧ h.Aug b := by
  cases d with
  | left => rfl
  | right =>
      simp only [join, Aug, inorder_node]
      tauto

theorem aug_plug {h : Heap τ ι} {t : Shape Nat} {c : Ctx Nat} :
    h.Aug (plug t c) ↔ h.Aug t ∧ h.AugCtx t.inorder c := by
  induction c generalizing t with
  | nil => simp [AugCtx]
  | cons f c ih =>
      rw [plug_cons, ih, aug_join, AugCtx, inorder_join]
      tauto

theorem AugCtx.sibs {h : Heap τ ι} {ids : List Nat} {c : Ctx Nat} (hc : h.AugCtx ids c) :
    h.AugSibs c := by
  induction c generalizing ids with
  | nil => simp [AugSibs]
  | cons f c ih =>
      intro g hg
      rcases List.mem_cons.mp hg with rfl | hg
      · exact hc.2.1
      · exact ih hc.2.2 g hg

/-- The heaps agree on the allocation and the augmented fields of a node. -/
structure SameAt (h h' : Heap τ ι) (z : Nat) : Prop where
  alloc : h'.alloc z = h.alloc z
  lb : h'.lb z = h.lb z
  ub : h'.ub z = h.ub z
  gap : h'.gap z = h.gap z

theorem Ordered.congr {h h' : Heap τ ι} {ids : List Nat} (ho : h.Ordered ids)
    (hs : ∀ z ∈ ids, h'.lo z = h.lo z ∧ h'.hi z = h.hi z) : h'.Ordered ids := by
  obtain ⟨⟨hp, hl⟩, hr⟩ := ho
  refine ⟨⟨?_, fun a ha => by rw [(hs a ha).1, (hs a ha).2]; exact hl a ha⟩,
    fun a ha => by rw [(hs a ha).1, (hs a ha).2]; exact hr a ha⟩
  exact hp.imp_of_mem (fun {a b} ha hb hab => by rw [(hs a ha).2, (hs b hb).1]; exact hab)

theorem maxGap_congr {α : Type} {lo hi lo' hi' : α → Int} {as : List α}
    (hs : ∀ a ∈ as, lo' a = lo a ∧ hi' a = hi a) : maxGap lo' hi' as = maxGap lo hi as := by
  induction as with
  | nil => rfl
  | cons a as ih =>
      cases as with
      | nil => rfl
      | cons b as =>
          rw [maxGap, maxGap, ih (fun c hc => hs c (by simp [hc])), (hs a (by simp)).2,
            (hs b (by simp)).1]

/-- The statement for a node depends on its own augmented fields and on the allocations below. -/
theorem AugAt.congr {h h' : Heap τ ι} {ids : List Nat} {x : Nat} (ha : h.AugAt ids x)
    (hs : ∀ z ∈ ids, h'.alloc z = h.alloc z) (hx : SameAt h h' x) : h'.AugAt ids x := by
  have hlh : ∀ z ∈ ids, h'.lo z = h.lo z ∧ h'.hi z = h.hi z := fun z hz => by
    simp only [lo, hi, hs z hz, and_self]
  obtain ⟨⟨⟨a, ha1, ha2⟩, ha3⟩, ⟨⟨b, hb1, hb2⟩, hb3⟩, hg⟩ := ha
  refine ⟨⟨⟨a, ha1, ?_⟩, fun z hz => ?_⟩, ⟨⟨b, hb1, ?_⟩, fun z hz => ?_⟩, fun hc => ?_⟩
  · rw [(hlh a ha1).1, hx.lb, ha2]
  · rw [(hlh z hz).1, hx.lb]
    exact ha3 z hz
  · rw [(hlh b hb1).2, hx.ub, hb2]
  · rw [(hlh z hz).2, hx.ub]
    exact hb3 z hz
  · rw [hx.lb, hx.ub] at hc
    rw [hx.gap, hg hc, maxGap_congr hlh]

theorem Aug.congr {h h' : Heap τ ι} {t : Shape Nat} (ha : h.Aug t)
    (hs : ∀ z ∈ t.inorder, SameAt h h' z) : h'.Aug t := by
  induction t with
  | nil => trivial
  | node l x r ihl ihr =>
      obtain ⟨h1, h2, h3⟩ := ha
      exact ⟨h1.congr (fun z hz => (hs z hz).alloc) (hs x (by simp)),
        ihl h2 (fun z hz => hs z (by simp [hz])), ihr h3 (fun z hz => hs z (by simp [hz]))⟩

theorem mem_fillIds {f : Frame Nat} {ids : List Nat} {z : Nat} :
    z ∈ fillIds f ids ↔ z ∈ ids ∨ z = f.id ∨ z ∈ f.sib.inorder := by
  obtain ⟨d, x, s⟩ := f
  cases d <;> simp only [fillIds, List.mem_append, List.mem_cons]
  tauto

theorem AugCtx.congr {h h' : Heap τ ι} {ids : List Nat} {c : Ctx Nat} (ha : h.AugCtx ids c)
    (hs : ∀ z ∈ Ctx.ids c, SameAt h h' z) (hi : ∀ z ∈ ids, h'.alloc z = h.alloc z) :
    h'.AugCtx ids c := by
  induction c generalizing ids with
  | nil => trivial
  | cons f c ih =>
      obtain ⟨h1, h2, h3⟩ := ha
      have hf : ∀ z ∈ fillIds f ids, h'.alloc z = h.alloc z := by
        intro z hz
        rcases mem_fillIds.mp hz with hz | rfl | hz
        · exact hi z hz
        · exact (hs _ (by simp)).alloc
        · exact (hs z (by simp [hz])).alloc
      exact ⟨h1.congr hf (hs _ (by simp)), h2.congr (fun z hz => hs z (by simp [hz])),
        ih h3 (fun z hz => hs z (by simp [hz])) hf⟩

/-! ### `fix` -/

@[simp] theorem fix_none (h : Heap τ ι) : h.fix none = h := rfl
@[simp] theorem fix_toStore (h : Heap τ ι) (n : Option Nat) : (h.fix n).toStore = h.toStore := by
  cases n <;> rfl
@[simp] theorem fix_alloc (h : Heap τ ι) (n : Option Nat) : (h.fix n).alloc = h.alloc := by
  cases n <;> rfl
@[simp] theorem fix_color (h : Heap τ ι) (n : Option Nat) : (h.fix n).color = h.color := by
  cases n <;> rfl
@[simp] theorem fix_fresh (h : Heap τ ι) (n : Option Nat) : (h.fix n).fresh = h.fresh := by
  cases n <;> rfl

theorem fix_sameAt (h : Heap τ ι) {n : Option Nat} {z : Nat} (hz : n ≠ some z) :
    SameAt h (h.fix n) z := by
  cases n with
  | none => exact ⟨rfl, rfl, rfl, rfl⟩
  | some n =>
      have hne : z ≠ n := fun e => hz (by rw [e])
      exact ⟨rfl, if_neg hne, if_neg hne, if_neg hne⟩

/-- What is kept for a subtree. -/
def kept (h : Heap τ ι) (t : Shape Nat) : Option (Int × Int × Nat) :=
  t.root.map (fun x => (h.lb x, h.ub x, h.gap x))

theorem Aug.kept {h : Heap τ ι} {t : Shape Nat} (ha : h.Aug t) :
    Kept h.lo h.hi (2 ^ 63) t.inorder (h.kept t) := by
  cases t with
  | nil => rfl
  | node l x r => exact ha.1

theorem toU64_of_nonneg {x : Int} (h0 : 0 ≤ x) (h1 : x < 2 ^ 63) : (toU64 x : Int) = x := by
  unfold toU64
  omega

/-- `fix` restores the augmented fields of a node from those of its children. -/
theorem fix_augAt {h : Heap τ ι} {l r : Shape Nat} {x : Nat}
    (hcl : h.child .left x = l.root) (hcr : h.child .right x = r.root)
    (ho : h.Ordered (l.inorder ++ x :: r.inorder)) (hl : h.Aug l) (hr : h.Aug r) :
    (h.fix (some x)).AugAt (l.inorder ++ x :: r.inorder) x := by
  obtain ⟨hs, hrange⟩ := ho
  obtain ⟨hx1, hx2⟩ := hrange x (by simp)
  obtain ⟨hsl, hsx, hlx⟩ := sorted_append.mp hs
  obtain ⟨hx, hxr, hsr⟩ := sorted_cons.mp hsx
  have hkl := hl.kept
  have hkr := hr.kept
  -- the kept values of the children, as `fix` reads them
  have hlo : ∀ v w g, h.kept l = some (v, w, g) → v ≤ h.lo x ∧ w ≤ h.lo x ∧ v ≤ w ∧
      (w - v < 2 ^ 63 → (g : Int) ≤ w - v) := by
    intro v w g hk
    rw [hk] at hkl
    obtain ⟨a, ha, hav⟩ := hkl.least.1
    obtain ⟨b, hb, hbw⟩ := hkl.greatest.1
    have h1 := hlx b hb x (by simp)
    have h2 := Augmented.le hkl hsl
    refine ⟨by omega, by omega, h2, fun hcap => ?_⟩
    rw [hkl.gap hcap]
    exact maxGap_le hsl hkl.least.2 hkl.greatest.2 h2
  have hhi : ∀ v w g, h.kept r = some (v, w, g) → h.hi x ≤ v ∧ h.hi x ≤ w ∧ v ≤ w ∧
      (w - v < 2 ^ 63 → (g : Int) ≤ w - v) := by
    intro v w g hk
    rw [hk] at hkr
    obtain ⟨a, ha, hav⟩ := hkr.least.1
    have h1 := hxr a ha
    have h2 := Augmented.le hkr hsr
    refine ⟨by omega, by omega, h2, fun hcap => ?_⟩
    rw [hkr.gap hcap]
    exact maxGap_le hsr hkr.least.2 hkr.greatest.2 h2
  have hlb : (h.fix (some x)).lb x = (h.kept l).elim (h.lo x) (·.1) := by
    cases l with
    | nil =>
        simp only [fix, hcl, root_nil, kept, Option.map_none, Option.elim_none, if_true]
        exact min_eq_right hx1
    | node _ y _ =>
        simp only [fix, hcl, root_node, kept, Option.map_some, Option.elim_some, if_true]
        exact min_eq_left (hlo _ _ _ rfl).1
  have hub : (h.fix (some x)).ub x = (h.kept r).elim (h.hi x) (·.2.1) := by
    cases r with
    | nil =>
        simp only [fix, hcr, root_nil, kept, Option.map_none, Option.elim_none, if_true]
        exact max_eq_right hx2
    | node _ y _ =>
        simp only [fix, hcr, root_node, kept, Option.map_some, Option.elim_some, if_true]
        exact max_eq_left (hhi _ _ _ rfl).2.1
  refine Augmented.node hs hkl hkr hlb hub (fun hcap => ?_)
  rw [hlb, hub] at hcap
  cases l with
  | nil =>
      cases r with
      | nil => simp [fix, hcl, hcr, kept, toU64]
      | node _ y _ =>
          obtain ⟨hr1, hr2, hr3, hr4⟩ := hhi _ _ _ rfl
          simp only [kept, root_nil, root_node, Option.map_none, Option.map_some, Option.elim_none,
            Option.elim_some] at hcap
          have hg := hr4 (by omega)
          have hu := toU64_of_nonneg (x := h.lb y - h.hi x) (by omega) (by omega)
          simp only [fix, hcl, hcr, root_nil, root_node, kept, Option.map_none, Option.map_some,
            Option.elim_none, Option.elim_some, if_true, toU64] at hu ⊢
          simp only [hi] at *
          omega
  | node _ y _ =>
      obtain ⟨hl1, hl2, hl3, hl4⟩ := hlo _ _ _ rfl
      cases r with
      | nil =>
          simp only [kept, root_nil, root_node, Option.map_none, Option.map_some, Option.elim_none,
            Option.elim_some] at hcap
          have hg := hl4 (by omega)
          have hu := toU64_of_nonneg (x := h.lo x - h.ub y) (by omega) (by omega)
          simp only [fix, hcl, hcr, root_nil, root_node, kept, Option.map_none, Option.map_some,
            Option.elim_none, Option.elim_some, if_true, toU64] at hu ⊢
          simp only [lo] at *
          omega
      | node _ z _ =>
          obtain ⟨hr1, hr2, hr3, hr4⟩ := hhi _ _ _ rfl
          simp only [kept, root_node, Option.map_some, Option.elim_some] at hcap
          have hgl := hl4 (by omega)
          have hgr := hr4 (by omega)
          have hul := toU64_of_nonneg (x := h.lo x - h.ub y) (by omega) (by omega)
          have hur := toU64_of_nonneg (x := h.lb z - h.hi x) (by omega) (by omega)
          simp only [fix, hcl, hcr, root_node, kept, Option.map_some, Option.elim_some, if_true,
            toU64] at hul hur ⊢
          simp only [lo, hi] at *
          omega

/-- The heap with other links. -/
def withLinks (h : Heap τ ι) (s : Store Nat) : Heap τ ι := { h with toStore := s }

@[simp] theorem withLinks_toStore (h : Heap τ ι) (s : Store Nat) : (h.withLinks s).toStore = s := rfl
@[simp] theorem withLinks_alloc (h : Heap τ ι) (s : Store Nat) : (h.withLinks s).alloc = h.alloc := rfl
@[simp] theorem withLinks_color (h : Heap τ ι) (s : Store Nat) : (h.withLinks s).color = h.color := rfl
@[simp] theorem withLinks_fresh (h : Heap τ ι) (s : Store Nat) : (h.withLinks s).fresh = h.fresh := rfl
theorem withLinks_sameAt (h : Heap τ ι) (s : Store Nat) (z : Nat) : SameAt h (h.withLinks s) z :=
  ⟨rfl, rfl, rfl, rfl⟩

/-- `fix` reads the child links of its node only. -/
theorem fix_withLinks {h : Heap τ ι} {s : Store Nat} {n : Nat}
    (hc : ∀ d, s.child d n = h.child d n) :
    (h.withLinks s).fix (some n) = (h.fix (some n)).withLinks s := by
  simp only [fix, withLinks, hc]

theorem SameAt.trans {h h' h'' : Heap τ ι} {z : Nat} (h1 : SameAt h h' z) (h2 : SameAt h' h'' z) :
    SameAt h h'' z :=
  ⟨by rw [h2.alloc, h1.alloc], by rw [h2.lb, h1.lb], by rw [h2.ub, h1.ub], by rw [h2.gap, h1.gap]⟩

/-- `fix_augAt` for a node with its children on given sides. -/
theorem fix_augAt_join {h : Heap τ ι} {d : Dir} {a b : Shape Nat} {x : Nat}
    (hca : h.child d x = a.root) (hcb : h.child d.flip x = b.root)
    (ho : h.Ordered (join d a x b).inorder) (ha : h.Aug a) (hb : h.Aug b) :
    (h.fix (some x)).AugAt (join d a x b).inorder x := by
  cases d with
  | left => exact fix_augAt hca hcb ho ha hb
  | right => exact fix_augAt hcb hca ho hb ha

theorem Ordered.of_append {h : Heap τ ι} {as bs : List Nat} (ho : h.Ordered (as ++ bs)) :
    h.Ordered as ∧ h.Ordered bs := by
  obtain ⟨hs, hr⟩ := ho
  obtain ⟨h1, h2, -⟩ := sorted_append.mp hs
  exact ⟨⟨h1, fun n hn => hr n (by simp [hn])⟩, h2, fun n hn => hr n (by simp [hn])⟩

theorem Ordered.of_cons {h : Heap τ ι} {a : Nat} {as : List Nat} (ho : h.Ordered (a :: as)) :
    h.Ordered as := by
  rw [← List.singleton_append] at ho
  exact ho.of_append.2

theorem Ordered.focus {h : Heap τ ι} {t : Shape Nat} {c : Ctx Nat}
    (ho : h.Ordered (plug t c).inorder) : h.Ordered t.inorder := by
  rw [inorder_plug] at ho
  exact ho.of_append.1.of_append.2

theorem Ordered.join_left {h : Heap τ ι} {d : Dir} {a b : Shape Nat} {x : Nat}
    (ho : h.Ordered (join d a x b).inorder) : h.Ordered a.inorder ∧ h.Ordered b.inorder := by
  cases d with
  | left =>
      obtain ⟨h1, h2⟩ := ho.of_append
      exact ⟨h1, h2.of_cons⟩
  | right =>
      obtain ⟨h1, h2⟩ := ho.of_append
      exact ⟨h2.of_cons, h1⟩

end Heap

open Heap

/-! ### The tree -/

/-- The heap draws the shape, which holds nodes that were made, in ascending order. -/
structure Linked (t : Tree τ ι) (s : Shape Nat) : Prop where
  root : t.root = s.root
  holds : t.heap.Holds none s
  nodup : s.inorder.Nodup
  fresh : ∀ n ∈ s.inorder, n < t.heap.fresh
  ordered : t.heap.Ordered s.inorder

structure Valid (t : Tree τ ι) (s : Shape Nat) : Prop extends Linked t s where
  aug : t.heap.Aug s

namespace Tree

theorem relink_heap (t : Tree τ ι) (p : Option Nat) (n : Nat) (v : Option Nat) :
    (t.relink p n v).heap = t.heap.withLinks (t.heap.toStore.hang p n v) := by
  cases p <;> rfl

theorem relink_root {t : Tree τ ι} {s s' : Shape Nat} {c : Ctx Nat} {n : Nat}
    (hr : t.root = (plug s c).root) : (t.relink c.above n s'.root).root = (plug s' c).root := by
  cases c with
  | nil => rfl
  | cons f c =>
      refine hr.trans (root_plug_of_root (t := join f.dir s f.id f.sib) c ?_)
      rw [root_join, root_join]

/-- The links and the root after a rotation, and the three nodes whose fields it restores. -/
theorem rotate_eq {t : Tree τ ι} {d : Dir} {n tmp : Nat} (hc : t.heap.child d.flip n = some tmp)
    (hne : n ≠ tmp) (hp : t.heap.parent n ≠ some n) (hb : t.heap.child d tmp ≠ some n) :
    (rotate d t n).heap = (((t.heap.withLinks (t.heap.toStore.rotate d n)).fix (some n)).fix
      (some tmp)).fix ((t.heap.toStore.rotate d n).parent tmp) ∧
    (rotate d t n).root = (t.relink (t.heap.parent n) n (some tmp)).root := by
  have hpar : ((t.heap.toStore.setChild d.flip n (t.heap.child d tmp)).adopt (t.heap.child d tmp)
      (some n)).parent n = t.heap.parent n := by
    rw [Store.adopt_parent, if_neg hb, Store.setChild_parent]
  obtain ⟨s₁, hs₁⟩ : ∃ s₁, s₁ = (t.heap.toStore.setChild d.flip n (t.heap.child d tmp)).adopt
    (t.heap.child d tmp) (some n) := ⟨_, rfl⟩
  rw [← hs₁] at hpar
  have hrot : t.heap.toStore.rotate d n = (((s₁.setParent tmp (t.heap.parent n)).hang
      (t.heap.parent n) n (some tmp)).setChild d tmp (some n)).setParent n (some tmp) := by
    simp only [Store.rotate, hc, ← hs₁, hpar]
  have hchild : ∀ e, (t.heap.toStore.rotate d n).child e n = (t.heap.withLinks s₁).child e n := by
    intro e
    rw [hrot, Store.setParent_child, Store.setChild_child, if_neg (fun h => hne h.2),
      Store.hang_child_of_ne _ _ _ hp]
    rfl
  have hfix : (t.heap.withLinks (t.heap.toStore.rotate d n)).fix (some n) =
      ((t.heap.withLinks s₁).fix (some n)).withLinks (t.heap.toStore.rotate d n) := by
    rw [← fix_withLinks hchild]
    rfl
  have hroot : ∀ (t t' : Tree τ ι) p m v, t.root = t'.root →
      (t.relink p m v).root = (t'.relink p m v).root := by
    intro t t' p m v h
    cases p with
    | none => rfl
    | some p => exact h
  have hstep : rotate d t n =
      (let t₂ : Tree τ ι := { t with heap := (t.heap.withLinks s₁).fix (some n) }
       let t₃ := ({ t₂ with heap := t₂.heap.setParent tmp (t.heap.parent n) }).relink
        (t.heap.parent n) n (some tmp)
       let h₄ := (t₃.heap.setChild d tmp (some n)).setParent n (some tmp)
       let t₄ : Tree τ ι := { t₃ with heap := h₄.fix (some tmp) }
       t₄.fix (t₄.heap.parent tmp)) := by
    simp only [rotate, hc]
    have h2 : ((t.heap.setChild d.flip n (t.heap.child d tmp)).adopt (t.heap.child d tmp)
      (some n)) = t.heap.withLinks s₁ := by rw [hs₁]; rfl
    rw [h2]
    have h3 : ((t.heap.withLinks s₁).fix (some n)).parent n = t.heap.parent n := by
      rw [fix_toStore]
      exact hpar
    rw [h3]
  rw [hstep]
  refine ⟨?_, ?_⟩
  · simp only [Tree.fix, relink_heap]
    rw [hfix, hrot]
    simp only [Heap.setChild, Heap.setParent, withLinks, fix_toStore]
  · simp only [Tree.fix]
    exact hroot _ _ _ _ _ rfl

end Tree

/-- `fix` at the node above a subtree whose fields are right. -/
theorem aug_fix_frame {h : Heap τ ι} {t : Shape Nat} {f : Frame Nat} {c : Ctx Nat}
    (hh : h.Holds none (plug t (f :: c))) (hn : (plug t (f :: c)).inorder.Nodup)
    (ho : h.Ordered (plug t (f :: c)).inorder) (ht : h.Aug t) (hs : h.Aug f.sib) :
    (h.fix (some f.id)).Aug (join f.dir t f.id f.sib) := by
  obtain ⟨h1, h2, -⟩ := nodup_frame hn
  obtain ⟨-, -, hc, hc', -⟩ := Store.holds_plug.mp hh
  rw [plug_cons] at ho
  refine aug_join.mpr ⟨fix_augAt_join hc hc' ho.focus ht hs, ht.congr fun z hz => ?_,
    hs.congr fun z hz => ?_⟩
  · exact fix_sameAt _ (fun e => h1 (by cases e; exact hz))
  · exact fix_sameAt _ (fun e => h2 (by cases e; exact hz))

@[simp] theorem fixUp_none (h : Heap τ ι) (fuel : Nat) : h.fixUp fuel none = h := by
  cases fuel <;> rfl

/-- The frame of `fixUp`: the links, the allocations and the colours are not touched. -/
theorem fixUp_frame (h : Heap τ ι) (fuel : Nat) (n : Option Nat) :
    (h.fixUp fuel n).toStore = h.toStore ∧ (h.fixUp fuel n).alloc = h.alloc ∧
      (h.fixUp fuel n).color = h.color ∧ (h.fixUp fuel n).fresh = h.fresh := by
  induction fuel generalizing h n with
  | zero => exact ⟨rfl, rfl, rfl, rfl⟩
  | succ fuel ih =>
      cases n with
      | none => exact ⟨rfl, rfl, rfl, rfl⟩
      | some m =>
          obtain ⟨h1, h2, h3, h4⟩ := ih (h.fix (some m)) ((h.fix (some m)).parent m)
          rw [fix_toStore] at h1
          rw [fix_alloc] at h2
          rw [fix_color] at h3
          rw [fix_fresh] at h4
          exact ⟨h1, h2, h3, h4⟩

theorem Heap.Ordered.of_alloc {h h' : Heap τ ι} {ids : List Nat} (ho : h.Ordered ids)
    (ha : h'.alloc = h.alloc) : h'.Ordered ids :=
  ho.congr (fun z _ => by simp only [lo, hi, ha, and_self])

/-- Climbing from a subtree whose fields are right, `fix` makes those of the path right. -/
theorem fixUp_aug {h : Heap τ ι} {t : Shape Nat} {c : Ctx Nat} {fuel : Nat}
    (hh : h.Holds none (plug t c)) (hn : (plug t c).inorder.Nodup)
    (ho : h.Ordered (plug t c).inorder) (ht : h.Aug t) (hs : h.AugSibs c) (hf : c.length ≤ fuel) :
    (h.fixUp fuel c.above).Aug (plug t c) := by
  induction c generalizing h t fuel with
  | nil => simpa using ht
  | cons f c ih =>
      obtain ⟨fuel, rfl⟩ : ∃ k, fuel = k + 1 := ⟨fuel - 1, by simp at hf; omega⟩
      have hpar : h.parent f.id = Ctx.above c := (Store.holds_plug.mp hh).2.1
      have hfr := nodup_frame hn
      rw [plug_cons] at hh hn ho ⊢
      rw [Ctx.above_cons, Heap.fixUp]
      simp only [fix_toStore, hpar]
      refine ih (by rw [fix_toStore]; exact hh) hn (ho.of_alloc (fix_alloc _ _))
        (aug_fix_frame (by rw [plug_cons]; exact hh) hn ho ht (hs f (by simp))) ?_
        (by simp at hf; omega)
      intro g hg
      refine (hs g (by simp [hg])).congr fun z hz => fix_sameAt _ (fun e => hfr.2.2 ?_)
      cases e
      exact sib_mem_ids hg hz

theorem fix_linked {t : Tree τ ι} {s : Shape Nat} (hl : Linked t s) (n : Option Nat) :
    Linked (t.fix n) s := by
  refine ⟨hl.root, ?_, hl.nodup, ?_, hl.ordered.of_alloc (fix_alloc _ _)⟩
  · simp only [Tree.fix, fix_toStore]
    exact hl.holds
  · simp only [Tree.fix, fix_fresh]
    exact hl.fresh

/-- What an operation on the links leaves alone. -/
structure Framed (h h' : Heap τ ι) : Prop where
  alloc : h'.alloc = h.alloc
  color : h'.color = h.color
  fresh : h'.fresh = h.fresh

/-- **Rotation.** A rotation keeps the tree valid and leaves allocations and colours alone. -/
theorem rotate_valid {t : Tree τ ι} {d : Dir} {a b e : Shape Nat} {x y : Nat} {c : Ctx Nat}
    (h : Valid t (plug (join d a x (join d b y e)) c)) :
    Valid (Tree.rotate d t x) (plug (join d (join d a x b) y e) c) ∧
      Framed t.heap (Tree.rotate d t x).heap := by
  have hids := inorder_plug_congr (inorder_rotate d a x b y e) c
  have hnew := Store.rotate_holds h.holds h.nodup
  have hn' : (plug (join d (join d a x b) y e) c).inorder.Nodup := hids ▸ h.nodup
  obtain ⟨hnf, -, hdis⟩ := nodup_focus h.nodup
  obtain ⟨⟨hpx, -, hcx, -, hy⟩, -⟩ := (Store.holds_plug.trans
    (and_congr_left fun _ => Store.holds_join)).mp h.holds
  obtain ⟨-, hcy, -, -, -⟩ := Store.holds_join.mp hy
  rw [((inorder_join_perm _ _ _ _).trans (((inorder_join_perm _ _ _ _).cons x).append_left _)).nodup_iff]
    at hnf
  simp only [List.nodup_append, List.nodup_cons, List.mem_append, List.mem_cons] at hnf
  have hxy : x ≠ y := by grind
  have hza : ∀ z ∈ a.inorder, x ≠ z ∧ y ≠ z := by grind
  have hzb : ∀ z ∈ b.inorder, x ≠ z ∧ y ≠ z := by grind
  have hze : ∀ z ∈ e.inorder, x ≠ z ∧ y ≠ z := by grind
  have hzc : ∀ z ∈ Ctx.ids c, x ≠ z ∧ y ≠ z := fun z hz =>
    ⟨fun hx => hdis x (mem_join.mpr (by simp)) (hx ▸ hz),
      fun hx => hdis y (mem_join.mpr (by simp [mem_join])) (hx ▸ hz)⟩
  have hpn : t.heap.parent x ≠ some x := by
    rw [hpx]
    exact fun hx => (hzc x (Ctx.above_mem hx)).1 rfl
  have hbn : t.heap.child d y ≠ some x := by
    rw [hcy]
    exact fun hx => (hzb x (root_mem hx)).1 rfl
  rw [root_join] at hcx
  obtain ⟨heq, hroot⟩ := Tree.rotate_eq hcx hxy hpn hbn
  -- the links of the rotated tree
  obtain ⟨S, hS⟩ : ∃ S, S = t.heap.toStore.rotate d x := ⟨_, rfl⟩
  rw [← hS] at hnew heq
  obtain ⟨hfoc, hctx⟩ := Store.holds_plug.mp hnew
  obtain ⟨hSpy, hSy, hSy', hxfoc, -⟩ := Store.holds_join.mp hfoc
  obtain ⟨-, hSx, hSx', -, -⟩ := Store.holds_join.mp hxfoc
  rw [hSpy] at heq
  have ho : ∀ h' : Heap τ ι, h'.alloc = t.heap.alloc → h'.Ordered (plug (join d (join d a x b) y e) c).inorder :=
    fun h' ha => (hids ▸ h.ordered : t.heap.Ordered _).of_alloc ha
  obtain ⟨haug, haugc⟩ := aug_plug.mp h.aug
  obtain ⟨-, haa, haye⟩ := aug_join.mp haug
  obtain ⟨-, hab, hae⟩ := aug_join.mp haye
  -- first `x`, then `y`, then the node above
  obtain ⟨h₁, hh₁⟩ : ∃ h₁, h₁ = (t.heap.withLinks S).fix (some x) := ⟨_, rfl⟩
  have hs₁ : ∀ z, x ≠ z → SameAt t.heap h₁ z := fun z hz => by
    rw [hh₁]
    exact (withLinks_sameAt _ _ z).trans (fix_sameAt _ (by simpa using hz))
  have hx₁ : h₁.Aug (join d a x b) := by
    rw [hh₁]
    refine aug_join.mpr ⟨fix_augAt_join hSx hSx' (ho _ rfl).focus.join_left.1
      (haa.congr fun z _ => withLinks_sameAt _ _ z) (hab.congr fun z _ => withLinks_sameAt _ _ z), ?_, ?_⟩
    · exact hh₁ ▸ haa.congr fun z hz => hs₁ z (hza z hz).1
    · exact hh₁ ▸ hab.congr fun z hz => hs₁ z (hzb z hz).1
  have he₁ : h₁.Aug e := hae.congr fun z hz => hs₁ z (hze z hz).1
  obtain ⟨h₂, hh₂⟩ : ∃ h₂, h₂ = h₁.fix (some y) := ⟨_, rfl⟩
  have hst₂ : h₂.toStore = S := by rw [hh₂, hh₁, fix_toStore, fix_toStore, withLinks_toStore]
  have hal₂ : h₂.alloc = t.heap.alloc := by rw [hh₂, hh₁, fix_alloc, fix_alloc, withLinks_alloc]
  have hs₂ : ∀ z, y ≠ z → SameAt h₁ h₂ z := fun z hz => by
    rw [hh₂]
    exact fix_sameAt _ (by simpa using hz)
  have hy₂ : h₂.Aug (join d (join d a x b) y e) := by
    refine aug_join.mpr ⟨?_, hx₁.congr fun z hz => hs₂ z ?_, he₁.congr fun z hz => hs₂ z (hze z hz).2⟩
    · rw [hh₂]
      refine fix_augAt_join ?_ ?_ ?_ hx₁ he₁
      · rw [hh₁, fix_toStore]
        exact hSy
      · rw [hh₁, fix_toStore]
        exact hSy'
      · exact (ho h₁ (by rw [hh₁, fix_alloc, withLinks_alloc])).focus
    · rcases mem_join.mp hz with hz | rfl | hz
      · exact (hza z hz).2
      · exact hxy.symm
      · exact (hzb z hz).2
  have hc₂ : h₂.AugCtx (join d (join d a x b) y e).inorder c := by
    rw [inorder_rotate]
    exact haugc.congr (fun z hz => (hs₁ z (hzc z hz).1).trans (hs₂ z (hzc z hz).2))
      (fun z _ => by rw [hal₂])
  have hlast : (h₂.fix c.above).Aug (plug (join d (join d a x b) y e) c) := by
    cases c with
    | nil => exact hy₂
    | cons f c =>
        obtain ⟨-, hsib, habove⟩ := hc₂
        rw [plug_cons, aug_plug, Ctx.above_cons, inorder_join]
        refine ⟨aug_fix_frame (hst₂ ▸ hnew) hn' (ho h₂ hal₂) hy₂ hsib,
          habove.congr (fun z hz => fix_sameAt _ ?_) (fun z _ => by rw [fix_alloc])⟩
        exact fun e => (nodup_frame hn').2.2 (by cases e; exact hz)
  have hheap : (Tree.rotate d t x).heap = h₂.fix c.above := by rw [heq, hh₂, hh₁]
  refine ⟨⟨⟨?_, ?_, hn', ?_, ho _ ?_⟩, ?_⟩, ?_, ?_, ?_⟩
  · rw [hroot, hpx]
    have : (t.relink c.above x (join d (join d a x b) y e).root).root =
        (plug (join d (join d a x b) y e) c).root := Tree.relink_root h.root
    rwa [root_join] at this
  · rw [hheap, fix_toStore, hst₂]
    exact hnew
  · rw [hids, hheap, fix_fresh, hh₂, hh₁, fix_fresh, fix_fresh, withLinks_fresh]
    exact h.fresh
  · rw [hheap, fix_alloc, hal₂]
  · rw [hheap]
    exact hlast
  · rw [hheap, fix_alloc, hal₂]
  · rw [hheap, fix_color, hh₂, hh₁, fix_color, fix_color, withLinks_color]
  · rw [hheap, fix_fresh, hh₂, hh₁, fix_fresh, fix_fresh, withLinks_fresh]

/-- Colours play no part in validity. -/
theorem setColor_valid {t : Tree τ ι} {s : Shape Nat} (h : Valid t s) (n : Nat) (v : Color) :
    Valid (t.setColor n v) s :=
  ⟨⟨h.root, h.holds, h.nodup, h.fresh, h.ordered⟩,
    h.aug.congr fun _ _ => ⟨rfl, rfl, rfl, rfl⟩⟩

theorem blacken_valid {t : Tree τ ι} {s : Shape Nat} (h : Valid t s) (q : Option Nat) :
    Valid (t.blacken q) s := by
  cases q with
  | none => exact h
  | some q => exact setColor_valid h q .black

end E9Patch
