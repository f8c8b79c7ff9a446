import Mathlib.Algebra.Order.Ring.Int
import Mathlib.Tactic.Common
import Mathlib.Data.List.Nodup
import Mathlib.Data.List.Perm.Basic

/-!
Binary trees held in a store of linked nodes. A `Shape` is the tree a reader draws, a `Store` is what
a program keeps (two child links and a parent link per node), and `Store.Holds` says that the store
draws the shape. Loops that climb parent links are followed with a one-hole context: `plug t c` is the
whole tree, `t` the subtree at the loop's node and `c` the path back to the root.
-/

namespace PtrTree

inductive Dir where
  | left
  | right
  deriving DecidableEq, Repr

namespace Dir

def flip : Dir → Dir
  | left => right
  | right => left

@[simp] theorem flip_left : flip left = right := rfl
@[simp] theorem flip_right : flip right = left := rfl
@[simp] theorem flip_flip (d : Dir) : d.flip.flip = d := by cases d <;> rfl

@[simp] theorem flip_ne (d : Dir) : d.flip ≠ d := by cases d <;> decide
@[simp] theorem ne_flip (d : Dir) : d ≠ d.flip := by cases d <;> decide

theorem eq_or_eq_flip (d e : Dir) : e = d ∨ e = d.flip := by cases d <;> cases e <;> simp

end Dir

variable {ι : Type}

inductive Shape (ι : Type) where
  | nil
  | node (l : Shape ι) (x : ι) (r : Shape ι)
  deriving DecidableEq

namespace Shape

def root : Shape ι → Option ι
  | nil => none
  | node _ x _ => some x

def inorder : Shape ι → List ι
  | nil => []
  | node l x r => l.inorder ++ x :: r.inorder

def size : Shape ι → Nat
  | nil => 0
  | node l _ r => l.size + r.size + 1

/-- The node `x` with `a` on side `d` and `b` on the other side. -/
def join : Dir → Shape ι → ι → Shape ι → Shape ι
  | .left, a, x, b => node a x b
  | .right, a, x, b => node b x a

@[simp] theorem root_nil : (nil : Shape ι).root = none := rfl
@[simp] theorem root_node (l : Shape ι) (x : ι) (r : Shape ι) : (node l x r).root = some x := rfl
@[simp] theorem inorder_nil : (nil : Shape ι).inorder = [] := rfl
@[simp] theorem inorder_node (l : Shape ι) (x : ι) (r : Shape ι) :
    (node l x r).inorder = l.inorder ++ x :: r.inorder := rfl
@[simp] theorem size_nil : (nil : Shape ι).size = 0 := rfl
@[simp] theorem size_node (l : Shape ι) (x : ι) (r : Shape ι) :
    (node l x r).size = l.size + r.size + 1 := rfl

@[simp] theorem root_join (d : Dir) (a : Shape ι) (x : ι) (b : Shape ι) :
    (join d a x b).root = some x := by cases d <;> rfl

theorem join_flip (d : Dir) (a : Shape ι) (x : ι) (b : Shape ι) :
    join d.flip a x b = join d b x a := by cases d <;> rfl

theorem mem_join {d : Dir} {a b : Shape ι} {x z : ι} :
    z ∈ (join d a x b).inorder ↔ z ∈ a.inorder ∨ z = x ∨ z ∈ b.inorder := by
  cases d with
  | left => simp [join]
  | right =>
      simp only [join, inorder_node, List.mem_append, List.mem_cons]
      tauto

theorem inorder_join_perm (d : Dir) (a : Shape ι) (x : ι) (b : Shape ι) :
    (join d a x b).inorder.Perm (a.inorder ++ x :: b.inorder) := by
  cases d with
  | left => exact List.Perm.refl _
  | right =>
      simp only [join, inorder_node]
      exact List.perm_append_comm.trans (by simpa using List.perm_middle.symm)

theorem length_inorder (t : Shape ι) : t.inorder.length = t.size := by
  induction t with
  | nil => rfl
  | node l x r ihl ihr =>
      simp only [inorder_node, List.length_append, List.length_cons, size_node, ihl, ihr]
      omega

theorem root_mem {t : Shape ι} {x : ι} (h : t.root = some x) : x ∈ t.inorder := by
  cases t with
  | nil => cases h
  | node l y r =>
      cases h
      simp

theorem inorder_rotate (d : Dir) (a : Shape ι) (x : ι) (b : Shape ι) (y : ι) (e : Shape ι) :
    (join d (join d a x b) y e).inorder = (join d a x (join d b y e)).inorder := by
  cases d <;> simp [join]

end Shape

open Shape

/-- One step of a path to the root: the hole is the `dir` child of `id`, the other child is `sib`. -/
structure Frame (ι : Type) where
  dir : Dir
  id : ι
  sib : Shape ι

/-- The tree around a hole, innermost frame first. -/
abbrev Ctx (ι : Type) := List (Frame ι)

namespace Ctx

/-- The node above the hole. -/
def above : Ctx ι → Option ι
  | [] => none
  | f :: _ => some f.id

def ids : Ctx ι → List ι
  | [] => []
  | f :: c => f.id :: (f.sib.inorder ++ ids c)

/-- The nodes before the hole, in order. -/
def before : Ctx ι → List ι
  | [] => []
  | f :: c => before c ++ (match f.dir with
      | .left => []
      | .right => f.sib.inorder ++ [f.id])

/-- The nodes after the hole, in order. -/
def after : Ctx ι → List ι
  | [] => []
  | f :: c => (match f.dir with
      | .left => f.id :: f.sib.inorder
      | .right => []) ++ after c

@[simp] theorem above_nil : above ([] : Ctx ι) = none := rfl
@[simp] theorem above_cons (f : Frame ι) (c : Ctx ι) : above (f :: c) = some f.id := rfl
@[simp] theorem ids_nil : ids ([] : Ctx ι) = [] := rfl
@[simp] theorem ids_cons (f : Frame ι) (c : Ctx ι) :
    ids (f :: c) = f.id :: (f.sib.inorder ++ ids c) := rfl

theorem above_mem {c : Ctx ι} {p : ι} (h : above c = some p) : p ∈ ids c := by
  cases c with
  | nil => cases h
  | cons f c =>
      cases h
      simp

end Ctx

def plug (t : Shape ι) : Ctx ι → Shape ι
  | [] => t
  | f :: c => plug (join f.dir t f.id f.sib) c

@[simp] theorem plug_nil (t : Shape ι) : plug t ([] : Ctx ι) = t := rfl
@[simp] theorem plug_cons (t : Shape ι) (f : Frame ι) (c : Ctx ι) :
    plug t (f :: c) = plug (join f.dir t f.id f.sib) c := rfl

theorem inorder_plug (t : Shape ι) (c : Ctx ι) :
    (plug t c).inorder = c.before ++ t.inorder ++ c.after := by
  induction c generalizing t with
  | nil => simp [Ctx.before, Ctx.after]
  | cons f c ih =>
      obtain ⟨d, x, sib⟩ := f
      rw [plug_cons, ih]
      cases d <;> simp [join, Ctx.before, Ctx.after]

theorem inorder_plug_congr {t t' : Shape ι} (h : t.inorder = t'.inorder) (c : Ctx ι) :
    (plug t c).inorder = (plug t' c).inorder := by
  rw [inorder_plug, inorder_plug, h]

theorem inorder_plug_perm (t : Shape ι) (c : Ctx ι) :
    (plug t c).inorder.Perm (t.inorder ++ c.ids) := by
  induction c generalizing t with
  | nil => simp
  | cons f c ih =>
      refine (ih _).trans ?_
      refine ((inorder_join_perm f.dir t f.id f.sib).append_right _).trans ?_
      simp

theorem nodup_plug {t : Shape ι} {c : Ctx ι} :
    (plug t c).inorder.Nodup ↔ (t.inorder ++ c.ids).Nodup :=
  (inorder_plug_perm t c).nodup_iff

theorem mem_plug {t : Shape ι} {c : Ctx ι} {z : ι} :
    z ∈ (plug t c).inorder ↔ z ∈ t.inorder ∨ z ∈ c.ids := by
  rw [(inorder_plug_perm t c).mem_iff, List.mem_append]

theorem size_plug (t : Shape ι) (c : Ctx ι) : (plug t c).size = t.size + c.ids.length := by
  rw [← length_inorder, (inorder_plug_perm t c).length_eq, List.length_append, length_inorder]

theorem length_le_ids (c : Ctx ι) : c.length ≤ c.ids.length := by
  induction c with
  | nil => simp
  | cons f c ih =>
      simp only [List.length_cons, Ctx.ids_cons, List.length_append]
      omega

/-- The root of the whole tree: the last node of the path, or the focus itself. -/
theorem root_plug_of_root {t t' : Shape ι} (c : Ctx ι) (h : t.root = t'.root) :
    (plug t c).root = (plug t' c).root := by
  induction c generalizing t t' with
  | nil => exact h
  | cons f c ih =>
      rw [plug_cons, plug_cons]
      exact ih (by rw [root_join, root_join])

theorem plug_append (t : Shape ι) (c c' : Ctx ι) : plug t (c ++ c') = plug (plug t c) c' := by
  induction c generalizing t with
  | nil => rfl
  | cons f c ih => exact ih _

theorem before_append (c c' : Ctx ι) : Ctx.before (c ++ c') = Ctx.before c' ++ Ctx.before c := by
  induction c with
  | nil => simp [Ctx.before]
  | cons f c ih => simp [Ctx.before, ih]

theorem after_append (c c' : Ctx ι) : Ctx.after (c ++ c') = Ctx.after c ++ Ctx.after c' := by
  induction c with
  | nil => simp [Ctx.after]
  | cons f c ih => simp [Ctx.after, ih]

theorem ids_append (c c' : Ctx ι) : Ctx.ids (c ++ c') = Ctx.ids c ++ Ctx.ids c' := by
  induction c with
  | nil => rfl
  | cons f c ih => simp [ih]

theorem id_mem_ids {c : Ctx ι} {g : Frame ι} (hg : g ∈ c) : g.id ∈ Ctx.ids c := by
  induction c with
  | nil => cases hg
  | cons f c ih =>
      rcases List.mem_cons.mp hg with rfl | hg
      · simp
      · simp [ih hg]

theorem sib_mem_ids {c : Ctx ι} {g : Frame ι} {z : ι} (hg : g ∈ c) (hz : z ∈ g.sib.inorder) :
    z ∈ Ctx.ids c := by
  induction c with
  | nil => cases hg
  | cons f c ih =>
      rcases List.mem_cons.mp hg with rfl | hg
      · simp [hz]
      · simp [ih hg]

/-- A path passes through its nodes and not through the subtrees beside it. -/
theorem sib_ne_id {c : Ctx ι} {f g : Frame ι} {z : ι} (hn : (Ctx.ids c).Nodup) (hf : f ∈ c)
    (hg : g ∈ c) (hz : z ∈ f.sib.inorder) : g.id ≠ z := by
  induction c with
  | nil => cases hf
  | cons e c ih =>
      simp only [Ctx.ids_cons, List.nodup_cons, List.mem_append, not_or, List.nodup_append] at hn
      obtain ⟨⟨hes, hec⟩, -, hnc, hsc⟩ := hn
      rcases List.mem_cons.mp hf with rfl | hf' <;> rcases List.mem_cons.mp hg with rfl | hg'
      · exact fun e => hes (e ▸ hz)
      · exact fun e => hsc z hz g.id (id_mem_ids hg') e.symm
      · exact fun e => hec (e ▸ sib_mem_ids hf' hz)
      · exact ih hnc hf' hg'

theorem nodup_focus {t : Shape ι} {c : Ctx ι} (hn : (plug t c).inorder.Nodup) :
    t.inorder.Nodup ∧ (Ctx.ids c).Nodup ∧ ∀ z ∈ t.inorder, z ∉ Ctx.ids c := by
  rw [nodup_plug, List.nodup_append] at hn
  exact ⟨hn.1, hn.2.1, fun z hz hz' => hn.2.2 z hz z hz' rfl⟩

theorem nodup_frame {t : Shape ι} {f : Frame ι} {c : Ctx ι}
    (hn : (plug t (f :: c)).inorder.Nodup) :
    f.id ∉ t.inorder ∧ f.id ∉ f.sib.inorder ∧ f.id ∉ Ctx.ids c := by
  obtain ⟨-, hc, ht⟩ := nodup_focus hn
  simp only [Ctx.ids_cons, List.nodup_cons, List.mem_append, not_or] at hc
  exact ⟨fun hm => ht _ hm (by simp), hc.1.1, hc.1.2⟩

/-- The links of the nodes of a program's trees. -/
structure Store (ι : Type) where
  child : Dir → ι → Option ι
  parent : ι → Option ι

namespace Store

/-- The store draws the shape below a node with parent `p`. -/
def Holds (s : Store ι) : Option ι → Shape ι → Prop
  | _, .nil => True
  | p, .node l x r => s.parent x = p ∧ s.child .left x = l.root ∧ s.child .right x = r.root ∧
      s.Holds (some x) l ∧ s.Holds (some x) r

/-- The store draws the context of a hole that holds the node `q`. -/
def HoldsCtx (s : Store ι) : Option ι → Ctx ι → Prop
  | _, [] => True
  | q, f :: c => s.parent f.id = Ctx.above c ∧ s.child f.dir f.id = q ∧
      s.child f.dir.flip f.id = f.sib.root ∧ s.Holds (some f.id) f.sib ∧ s.HoldsCtx (some f.id) c

@[simp] theorem holds_nil (s : Store ι) (p : Option ι) : s.Holds p .nil := trivial

theorem holds_join {s : Store ι} {p : Option ι} {d : Dir} {a : Shape ι} {x : ι} {b : Shape ι} :
    s.Holds p (join d a x b) ↔ s.parent x = p ∧ s.child d x = a.root ∧
      s.child d.flip x = b.root ∧ s.Holds (some x) a ∧ s.Holds (some x) b := by
  cases d with
  | left => simp [join, Holds]
  | right =>
      simp only [join, Holds, Dir.flip_right]
      tauto

theorem holds_plug {s : Store ι} {t : Shape ι} {c : Ctx ι} :
    s.Holds none (plug t c) ↔ s.Holds c.above t ∧ s.HoldsCtx t.root c := by
  induction c generalizing t with
  | nil => simp [HoldsCtx]
  | cons f c ih =>
      rw [plug_cons, ih, holds_join, root_join, HoldsCtx, Ctx.above_cons]
      tauto

theorem Holds.parent_root {s : Store ι} {p : Option ι} {t : Shape ι} {x : ι} (h : s.Holds p t)
    (hx : t.root = some x) : s.parent x = p := by
  cases t with
  | nil => cases hx
  | node l y r =>
      cases hx
      exact h.1

theorem Holds.congr {s s' : Store ι} {p : Option ι} {t : Shape ι} (h : s.Holds p t)
    (hp : ∀ z ∈ t.inorder, s'.parent z = s.parent z)
    (hc : ∀ z ∈ t.inorder, ∀ d, s'.child d z = s.child d z) : s'.Holds p t := by
  induction t generalizing p with
  | nil => trivial
  | node l x r ihl ihr =>
      obtain ⟨h1, h2, h3, h4, h5⟩ := h
      have hx : x ∈ (node l x r).inorder := by simp
      refine ⟨by rw [hp x hx, h1], by rw [hc x hx, h2], by rw [hc x hx, h3], ?_, ?_⟩
      · exact ihl h4 (fun z hz => hp z (by simp [hz])) (fun z hz => hc z (by simp [hz]))
      · exact ihr h5 (fun z hz => hp z (by simp [hz])) (fun z hz => hc z (by simp [hz]))

/-- A subtree is moved under another node by writing its root's parent link. -/
theorem Holds.reparent {s s' : Store ι} {p p' : Option ι} {t : Shape ι} (h : s.Holds p t)
    (hn : t.inorder.Nodup) (hc : ∀ z ∈ t.inorder, ∀ d, s'.child d z = s.child d z)
    (hp : ∀ z ∈ t.inorder, t.root ≠ some z → s'.parent z = s.parent z)
    (hr : ∀ z, t.root = some z → s'.parent z = p') : s'.Holds p' t := by
  cases t with
  | nil => trivial
  | node l x r =>
      obtain ⟨h1, h2, h3, h4, h5⟩ := h
      have hx : x ∈ (node l x r).inorder := by simp
      have hnx : ∀ z, z ∈ l.inorder ∨ z ∈ r.inorder → x ≠ z := by
        simp only [inorder_node, List.nodup_append, List.nodup_cons, List.mem_cons] at hn
        rintro z (hz | hz) rfl
        · exact hn.2.2 x hz x (Or.inl rfl) rfl
        · exact hn.2.1.1 hz
      refine ⟨hr x rfl, by rw [hc x hx, h2], by rw [hc x hx, h3], ?_, ?_⟩
      · exact h4.congr (fun z hz => hp z (by simp [hz]) (by simpa using hnx z (Or.inl hz)))
          (fun z hz => hc z (by simp [hz]))
      · exact h5.congr (fun z hz => hp z (by simp [hz]) (by simpa using hnx z (Or.inr hz)))
          (fun z hz => hc z (by simp [hz]))

theorem HoldsCtx.congr {s s' : Store ι} {q : Option ι} {c : Ctx ι} (h : s.HoldsCtx q c)
    (hp : ∀ z ∈ c.ids, s'.parent z = s.parent z)
    (hc : ∀ z ∈ c.ids, ∀ d, s'.child d z = s.child d z) : s'.HoldsCtx q c := by
  induction c generalizing q with
  | nil => trivial
  | cons f c ih =>
      obtain ⟨h1, h2, h3, h4, h5⟩ := h
      have hf : f.id ∈ Ctx.ids (f :: c) := by simp
      refine ⟨by rw [hp _ hf, h1], by rw [hc _ hf, h2], by rw [hc _ hf, h3], ?_, ?_⟩
      · exact h4.congr (fun z hz => hp z (by simp [hz])) (fun z hz => hc z (by simp [hz]))
      · exact ih h5 (fun z hz => hp z (by simp [hz])) (fun z hz => hc z (by simp [hz]))

/-- Another node is put into the hole by writing one child link of the node above it. -/
theorem HoldsCtx.refill {s s' : Store ι} {q q' : Option ι} {f : Frame ι} {c : Ctx ι}
    (h : s.HoldsCtx q (f :: c)) (hn : (Ctx.ids (f :: c)).Nodup)
    (hp : ∀ z ∈ Ctx.ids (f :: c), s'.parent z = s.parent z)
    (hc : ∀ z ∈ Ctx.ids (f :: c), ∀ d, ¬(d = f.dir ∧ z = f.id) → s'.child d z = s.child d z)
    (hq : s'.child f.dir f.id = q') : s'.HoldsCtx q' (f :: c) := by
  obtain ⟨h1, h2, h3, h4, h5⟩ := h
  have hf : f.id ∈ Ctx.ids (f :: c) := by simp
  simp only [Ctx.ids_cons, List.nodup_cons, List.mem_append, not_or] at hn
  refine ⟨by rw [hp _ hf, h1], hq, by rw [hc _ hf _ (by simp), h3], ?_, ?_⟩
  · refine h4.congr (fun z hz => hp z (by simp [hz])) (fun z hz d => hc z (by simp [hz]) d ?_)
    rintro ⟨-, rfl⟩
    exact hn.1.1 hz
  · refine h5.congr (fun z hz => hp z (by simp [hz])) (fun z hz d => hc z (by simp [hz]) d ?_)
    rintro ⟨-, rfl⟩
    exact hn.1.2 hz

variable [DecidableEq ι]

def setChild (s : Store ι) (d : Dir) (x : ι) (v : Option ι) : Store ι :=
  { s with child := fun e z => if e = d ∧ z = x then v else s.child e z }

def setParent (s : Store ι) (x : ι) (v : Option ι) : Store ι :=
  { s with parent := fun z => if z = x then v else s.parent z }

@[simp] theorem setChild_parent (s : Store ι) (d : Dir) (x : ι) (v : Option ι) :
    (s.setChild d x v).parent = s.parent := rfl
@[simp] theorem setParent_child (s : Store ι) (x : ι) (v : Option ι) :
    (s.setParent x v).child = s.child := rfl
theorem setChild_child (s : Store ι) (d : Dir) (x : ι) (v : Option ι) (e : Dir) (z : ι) :
    (s.setChild d x v).child e z = if e = d ∧ z = x then v else s.child e z := rfl
theorem setParent_parent (s : Store ι) (x : ι) (v : Option ι) (z : ι) :
    (s.setParent x v).parent z = if z = x then v else s.parent z := rfl

/-- The link of `p` to its child `x` is turned to `v`; as in the C code, the left link is tested. -/
def replaceChild (s : Store ι) (p x : ι) (v : Option ι) : Store ι :=
  if s.child .left p = some x then s.setChild .left p v else s.setChild .right p v

@[simp] theorem replaceChild_parent (s : Store ι) (p x : ι) (v : Option ι) :
    (s.replaceChild p x v).parent = s.parent := by
  unfold replaceChild
  split <;> rfl

/-- The link written is the one of the hole: the other child of the frame is not `x`. -/
theorem replaceChild_eq {s : Store ι} {f : Frame ι} {x : ι} (v : Option ι)
    (hq : s.child f.dir f.id = some x) (hs : s.child f.dir.flip f.id ≠ some x) :
    s.replaceChild f.id x v = s.setChild f.dir f.id v := by
  obtain ⟨d, p, sib⟩ := f
  cases d with
  | left => exact if_pos hq
  | right => exact if_neg hs

theorem replaceChild_child_of_ne (s : Store ι) {p x z : ι} (v : Option ι) (d : Dir) (h : z ≠ p) :
    (s.replaceChild p x v).child d z = s.child d z := by
  unfold replaceChild
  split <;> rw [setChild_child, if_neg (fun hz => h hz.2)]

theorem HoldsCtx.replaceChild {s : Store ι} {x : ι} {q : Option ι} {f : Frame ι} {c : Ctx ι}
    (h : s.HoldsCtx (some x) (f :: c)) (hn : (Ctx.ids (f :: c)).Nodup) (hx : x ∉ f.sib.inorder) :
    (s.replaceChild f.id x q).HoldsCtx q (f :: c) := by
  rw [replaceChild_eq q h.2.1 (by rw [h.2.2.1]; exact fun hr => hx (root_mem hr))]
  refine h.refill hn (fun z _ => rfl) (fun z _ d hd => ?_) ?_
  · rw [setChild_child, if_neg hd]
  · rw [setChild_child, if_pos ⟨rfl, rfl⟩]

/-- The node `q`, if there is one, gets the parent `x`. -/
def adopt (s : Store ι) (q : Option ι) (x : Option ι) : Store ι :=
  match q with
  | none => s
  | some b => s.setParent b x

@[simp] theorem adopt_child (s : Store ι) (q x : Option ι) : (s.adopt q x).child = s.child := by
  cases q <;> rfl

theorem adopt_parent (s : Store ι) (q x : Option ι) (z : ι) :
    (s.adopt q x).parent z = if q = some z then x else s.parent z := by
  cases q with
  | none => simp [adopt]
  | some b => simp [adopt, setParent_parent, eq_comm]

/-- Below `p`, if there is a node above, `v` takes the place of `x`. -/
def hang (s : Store ι) (p : Option ι) (x : ι) (v : Option ι) : Store ι :=
  match p with
  | none => s
  | some p => s.replaceChild p x v

@[simp] theorem hang_parent (s : Store ι) (p : Option ι) (x : ι) (v : Option ι) :
    (s.hang p x v).parent = s.parent := by
  cases p with
  | none => rfl
  | some p => exact replaceChild_parent s p x v

theorem hang_child_of_ne (s : Store ι) {p : Option ι} {x z : ι} (v : Option ι) (d : Dir)
    (h : p ≠ some z) : (s.hang p x v).child d z = s.child d z := by
  cases p with
  | none => rfl
  | some p => exact replaceChild_child_of_ne s v d (fun hz => h (by rw [hz]))

theorem HoldsCtx.hang {s : Store ι} {x : ι} {q : Option ι} {c : Ctx ι}
    (h : s.HoldsCtx (some x) c) (hn : (Ctx.ids c).Nodup) (hx : x ∉ Ctx.ids c) :
    (s.hang (Ctx.above c) x q).HoldsCtx q c := by
  cases c with
  | nil => trivial
  | cons f c => exact h.replaceChild hn (fun hm => hx (by simp [hm]))

/-- Rotation at `x` towards `d`: the child of `x` on the other side takes its place. -/
def rotate (s : Store ι) (d : Dir) (x : ι) : Store ι :=
  match s.child d.flip x with
  | none => s
  | some y =>
      let s₂ := (s.setChild d.flip x (s.child d y)).adopt (s.child d y) (some x)
      let s₄ := (s₂.setParent y (s₂.parent x)).hang (s₂.parent x) x (some y)
      (s₄.setChild d y (some x)).setParent x (some y)

/-- **Rotation.** The store draws the rotated tree, the rest of the tree in place. -/
theorem rotate_holds {s : Store ι} {d : Dir} {a b e : Shape ι} {x y : ι} {c : Ctx ι}
    (h : s.Holds none (plug (join d a x (join d b y e)) c))
    (hn : (plug (join d a x (join d b y e)) c).inorder.Nodup) :
    (s.rotate d x).Holds none (plug (join d (join d a x b) y e) c) := by
  have hnd : (a.inorder ++ x :: (b.inorder ++ y :: e.inorder) ++ Ctx.ids c).Nodup := by
    refine (List.Perm.nodup_iff ?_).mp (nodup_plug.mp hn)
    exact ((inorder_join_perm _ _ _ _).trans
      (((inorder_join_perm _ _ _ _).cons x).append_left _)).append_right _
  obtain ⟨hfoc, hctx⟩ := holds_plug.mp h
  obtain ⟨hpx, hcx, hcx', ha, hy⟩ := holds_join.mp hfoc
  obtain ⟨hpy, hcy, hcy', hb, he⟩ := holds_join.mp hy
  rw [root_join] at hcx' hctx
  have hroot : ∀ z, b.root = some z → z ∈ b.inorder := fun z => root_mem
  have hab : ∀ z, Ctx.above c = some z → z ∈ Ctx.ids c := fun z => Ctx.above_mem
  simp only [List.nodup_append, List.nodup_cons, List.mem_append, List.mem_cons] at hnd
  have hxy : x ≠ y := by grind
  have hcxx : Ctx.above c ≠ some x := by grind
  have hcyy : Ctx.above c ≠ some y := by grind
  have hza : ∀ z ∈ a.inorder, z ≠ x ∧ z ≠ y ∧ b.root ≠ some z ∧ Ctx.above c ≠ some z := by grind
  have hzb : ∀ z ∈ b.inorder, z ≠ x ∧ z ≠ y ∧ Ctx.above c ≠ some z := by grind
  have hze : ∀ z ∈ e.inorder, z ≠ x ∧ z ≠ y ∧ b.root ≠ some z ∧ Ctx.above c ≠ some z := by grind
  have hzc : ∀ z ∈ Ctx.ids c, z ≠ x ∧ z ≠ y ∧ b.root ≠ some z := by grind
  have hnb : b.inorder.Nodup := hnd.1.2.1.2.1
  have hnc : (Ctx.ids c).Nodup := hnd.2.1
  have hbx : b.root ≠ some x := fun hr => (hzb x (hroot x hr)).1 rfl
  have hby : b.root ≠ some y := fun hr => (hzb y (hroot y hr)).2.1 rfl
  clear hnd hroot hab
  -- the store before the two links between `x` and `y` are turned
  obtain ⟨s₃, hs₃⟩ : ∃ s₃, s₃ = ((s.setChild d.flip x b.root).adopt b.root (some x)).setParent y
    (Ctx.above c) := ⟨_, rfl⟩
  have hrot : s.rotate d x =
      ((s₃.hang (Ctx.above c) x (some y)).setChild d y (some x)).setParent x (some y) := by
    simp only [rotate, hcx', hcy, adopt_parent, setChild_parent, hpx, if_neg hbx, hs₃]
  have hp₃ : ∀ z, s₃.parent z =
      if z = y then Ctx.above c else if b.root = some z then some x else s.parent z := by
    intro z
    simp only [hs₃, setParent_parent, adopt_parent, setChild_parent]
  have hc₃ : ∀ e z, s₃.child e z = if e = d.flip ∧ z = x then b.root else s.child e z := by
    intro e z
    simp only [hs₃, setParent_child, adopt_child, setChild_child]
  have hctx₃ : s₃.HoldsCtx (some x) c := by
    refine hctx.congr (fun z hz => ?_) (fun z hz e => ?_)
    · rw [hp₃, if_neg (hzc z hz).2.1, if_neg (hzc z hz).2.2]
    · rw [hc₃, if_neg (fun hh => (hzc z hz).1 hh.2)]
  have hctx₄ := hctx₃.hang (q := some y) hnc (fun hm => (hzc x hm).1 rfl)
  -- inside the focus the link above is not seen
  have hp : ∀ z, (s.rotate d x).parent z = if z = x then some y else s₃.parent z := by
    intro z
    rw [hrot, setParent_parent, setChild_parent, hang_parent]
  have hc : ∀ z, Ctx.above c ≠ some z → ∀ e, (s.rotate d x).child e z =
      if e = d ∧ z = y then some x else s₃.child e z := by
    intro z hz e
    rw [hrot, setParent_child, setChild_child, hang_child_of_ne _ _ _ hz]
  -- below the two nodes no child link is written, and no parent link but the one of `b`
  have hcs : ∀ z, z ≠ x → z ≠ y → Ctx.above c ≠ some z →
      ∀ e, (s.rotate d x).child e z = s.child e z := by
    intro z hx hy hz e
    rw [hc z hz, if_neg (fun hh => hy hh.2), hc₃, if_neg (fun hh => hx hh.2)]
  have hps : ∀ z, z ≠ x → z ≠ y → b.root ≠ some z → (s.rotate d x).parent z = s.parent z := by
    intro z hx hy hz
    rw [hp, if_neg hx, hp₃, if_neg hy, if_neg hz]
  refine holds_plug.mpr ⟨holds_join.mpr ⟨?_, ?_, ?_, holds_join.mpr ⟨?_, ?_, ?_, ?_, ?_⟩, ?_⟩, ?_⟩
  · rw [hp, if_neg hxy.symm, hp₃, if_pos rfl]
  · rw [hc y hcyy, if_pos ⟨rfl, rfl⟩, root_join]
  · rw [hc y hcyy, if_neg (by simp), hc₃, if_neg (fun hh => hxy hh.2.symm), hcy']
  · rw [hp, if_pos rfl]
  · rw [hc x hcxx, if_neg (fun hh => hxy hh.2), hc₃, if_neg (by simp), hcx]
  · rw [hc x hcxx, if_neg (by simp), hc₃, if_pos ⟨rfl, rfl⟩]
  · exact ha.congr (fun z hz => hps z (hza z hz).1 (hza z hz).2.1 (hza z hz).2.2.1)
      (fun z hz => hcs z (hza z hz).1 (hza z hz).2.1 (hza z hz).2.2.2)
  · refine hb.reparent hnb (fun z hz => hcs z (hzb z hz).1 (hzb z hz).2.1 (hzb z hz).2.2)
      (fun z hz hr => hps z (hzb z hz).1 (hzb z hz).2.1 hr) (fun z hz => ?_)
    have hzb' := hzb z (root_mem hz)
    rw [hp, if_neg hzb'.1, hp₃, if_neg hzb'.2.1, if_pos hz]
  · exact he.congr (fun z hz => hps z (hze z hz).1 (hze z hz).2.1 (hze z hz).2.2.1)
      (fun z hz => hcs z (hze z hz).1 (hze z hz).2.1 (hze z hz).2.2.2)
  · rw [root_join]
    refine hctx₄.congr (fun z hz => ?_) (fun z hz e => ?_)
    · rw [hp, if_neg (hzc z hz).1, hang_parent]
    · rw [hrot, setParent_child, setChild_child, if_neg (fun hh => (hzc z hz).2.1 hh.2)]

/-- A node with at most one child goes, and the child takes its place. -/
theorem splice_holds {s : Store ι} {d : Dir} {t : Shape ι} {x : ι} {c : Ctx ι}
    (h : s.Holds none (plug (join d t x .nil) c)) (hn : (plug (join d t x .nil) c).inorder.Nodup) :
    ((s.adopt t.root c.above).hang c.above x t.root).Holds none (plug t c) := by
  obtain ⟨hfoc, hctx⟩ := holds_plug.mp h
  rw [root_join] at hctx
  obtain ⟨-, -, -, ht, -⟩ := holds_join.mp hfoc
  rw [nodup_plug, ((inorder_join_perm d t x .nil).append_right _).nodup_iff] at hn
  simp only [inorder_nil, List.nodup_append, List.nodup_cons, List.mem_append, List.mem_cons,
    List.not_mem_nil, or_false] at hn
  obtain ⟨⟨hnt, -, htx⟩, hnc, htc⟩ := hn
  have hxc : x ∉ Ctx.ids c := fun hx => htc x (Or.inr rfl) x hx rfl
  have hzc : ∀ z ∈ t.inorder, Ctx.above c ≠ some z := fun z hz ha =>
    htc z (Or.inl hz) z (Ctx.above_mem ha) rfl
  have hpar : ∀ z, ((s.adopt t.root c.above).hang c.above x t.root).parent z =
      if t.root = some z then c.above else s.parent z := fun z => by rw [hang_parent, adopt_parent]
  refine holds_plug.mpr ⟨ht.reparent hnt (fun z hz e => ?_) (fun z hz hr => ?_) (fun z hz => ?_), ?_⟩
  · rw [hang_child_of_ne _ _ _ (hzc z hz), adopt_child]
  · rw [hpar, if_neg hr]
  · rw [hpar, if_pos hz]
  · refine HoldsCtx.hang (x := x) (hctx.congr (fun z hz => ?_) (fun z hz e => ?_)) hnc hxc
    · rw [adopt_parent, if_neg (fun hr => htc z (Or.inl (root_mem hr)) z hz rfl)]
    · rw [adopt_child]

/-- The node `n` takes over the links of `x` and its place below the node above. -/
def substitute (s : Store ι) (x n : ι) : Store ι :=
  let s₁ := s.setParent n (s.parent x)
  let s₂ := s₁.setChild .left n (s₁.child .left x)
  let s₃ := s₂.setChild .right n (s₂.child .right x)
  let s₄ := s₃.hang (s₃.parent x) x (some n)
  let s₅ := s₄.adopt (s₄.child .left x) (some n)
  s₅.adopt (s₅.child .right x) (some n)

theorem substitute_holds {s : Store ι} {l r : Shape ι} {x n : ι} {c : Ctx ι}
    (h : s.Holds none (plug (node l x r) c)) (hn : (plug (node l x r) c).inorder.Nodup)
    (hnew : n ∉ (plug (node l x r) c).inorder) :
    (s.substitute x n).Holds none (plug (node l n r) c) := by
  obtain ⟨⟨hpx, hlx, hrx, hl, hr⟩, hctx⟩ := holds_plug.mp h
  rw [nodup_plug] at hn
  simp only [inorder_node, List.nodup_append, List.nodup_cons, List.mem_append, List.mem_cons] at hn
  simp only [mem_plug, inorder_node, List.mem_append, List.mem_cons, not_or] at hnew
  obtain ⟨⟨hnl, hnx, hnr⟩, hnc'⟩ := hnew
  obtain ⟨⟨hndl, ⟨hxr, hndr⟩, hlxr⟩, hndc, hfc⟩ := hn
  have hxc : x ∉ Ctx.ids c := fun hx => hfc x (Or.inr (Or.inl rfl)) x hx rfl
  have hac : ∀ z, Ctx.above c = some z → z ∈ Ctx.ids c := fun z => Ctx.above_mem
  have hacx : Ctx.above c ≠ some x := fun ha => hxc (hac x ha)
  have hacn : Ctx.above c ≠ some n := fun ha => hnc' (hac n ha)
  -- the child links, `x` aside, and the parent links
  obtain ⟨s₃, hs₃⟩ : ∃ s₃, s₃ = ((s.setParent n c.above).setChild .left n l.root).setChild .right n
    r.root := ⟨_, rfl⟩
  have hc₃ : ∀ e z, z ≠ n → s₃.child e z = s.child e z := by
    intro e z hz
    rw [hs₃, setChild_child, if_neg (fun hh => hz hh.2), setChild_child, if_neg (fun hh => hz hh.2),
      setParent_child]
  have hsub : s.substitute x n =
      ((s₃.hang c.above x (some n)).adopt l.root (some n)).adopt r.root (some n) := by
    have h1 : ((s.setParent n (s.parent x)).setChild .left n ((s.setParent n (s.parent x)).child .left
        x)).child .right x = r.root := by
      rw [setChild_child, if_neg (by simp), setParent_child, hrx]
    have h2 : s₃.parent x = c.above := by
      rw [hs₃, setChild_parent, setChild_parent, setParent_parent, if_neg (Ne.symm hnx), hpx]
    have h3 : ∀ e, (s₃.hang c.above x (some n)).child e x = s.child e x := fun e => by
      rw [hang_child_of_ne _ _ _ hacx, hc₃ _ _ (Ne.symm hnx)]
    simp only [substitute, h1]
    rw [setParent_child, hlx, hpx, ← hs₃, h2, h3, hlx, adopt_child, h3, hrx]
  have hchild : ∀ e z, c.above ≠ some z → (s.substitute x n).child e z = s₃.child e z := by
    intro e z hz
    rw [hsub, adopt_child, adopt_child, hang_child_of_ne _ _ _ hz]
  have hparent : ∀ z, z ≠ n → (s.substitute x n).parent z =
      if r.root = some z then some n else if l.root = some z then some n else s.parent z := by
    intro z hz
    rw [hsub, adopt_parent, adopt_parent, hang_parent, hs₃, setChild_parent, setChild_parent,
      setParent_parent, if_neg hz]
  have hln : l.root ≠ some n := fun hr => hnl (root_mem hr)
  have hrn : r.root ≠ some n := fun hr => hnr (root_mem hr)
  have hzl : ∀ z ∈ l.inorder, z ≠ n ∧ c.above ≠ some z ∧ r.root ≠ some z := fun z hz =>
    ⟨fun e => hnl (e ▸ hz), fun ha => hfc z (Or.inl hz) z (hac z ha) rfl,
      fun hr => hlxr z hz z (Or.inr (root_mem hr)) rfl⟩
  have hzr : ∀ z ∈ r.inorder, z ≠ n ∧ c.above ≠ some z ∧ l.root ≠ some z := fun z hz =>
    ⟨fun e => hnr (e ▸ hz), fun ha => hfc z (Or.inr (Or.inr hz)) z (hac z ha) rfl,
      fun hr => hlxr z (root_mem hr) z (Or.inr hz) rfl⟩
  have hzc : ∀ z ∈ Ctx.ids c, z ≠ n ∧ r.root ≠ some z ∧ l.root ≠ some z := fun z hz =>
    ⟨fun e => hnc' (e ▸ hz), fun hr => hfc z (Or.inr (Or.inr (root_mem hr))) z hz rfl,
      fun hr => hfc z (Or.inl (root_mem hr)) z hz rfl⟩
  refine holds_plug.mpr ⟨⟨?_, ?_, ?_, ?_, ?_⟩, ?_⟩
  · rw [hsub, adopt_parent, if_neg hrn, adopt_parent, if_neg hln, hang_parent, hs₃, setChild_parent,
      setChild_parent, setParent_parent, if_pos rfl]
  · rw [hchild _ _ hacn, hs₃, setChild_child, if_neg (by simp), setChild_child, if_pos ⟨rfl, rfl⟩]
  · rw [hchild _ _ hacn, hs₃, setChild_child, if_pos ⟨rfl, rfl⟩]
  · refine hl.reparent hndl (fun z hz e => ?_) (fun z hz hroot => ?_) (fun z hz => ?_)
    · rw [hchild _ _ (hzl z hz).2.1, hc₃ _ _ (hzl z hz).1]
    · rw [hparent z (hzl z hz).1, if_neg (hzl z hz).2.2, if_neg hroot]
    · rw [hparent z (hzl z (root_mem hz)).1, if_neg (hzl z (root_mem hz)).2.2, if_pos hz]
  · refine hr.reparent hndr (fun z hz e => ?_) (fun z hz hroot => ?_) (fun z hz => ?_)
    · rw [hchild _ _ (hzr z hz).2.1, hc₃ _ _ (hzr z hz).1]
    · rw [hparent z (hzr z hz).1, if_neg hroot, if_neg (hzr z hz).2.2]
    · rw [hparent z (hzr z (root_mem hz)).1, if_pos hz]
  · have hctx₃ : s₃.HoldsCtx (some x) c := by
      refine hctx.congr (fun z hz => ?_) (fun z hz e => hc₃ e z (hzc z hz).1)
      rw [hs₃, setChild_parent, setChild_parent, setParent_parent, if_neg (hzc z hz).1]
    refine (hctx₃.hang (q := some n) hndc hxc).congr (fun z hz => ?_) (fun z hz e => ?_)
    · rw [hsub, adopt_parent, if_neg (hzc z hz).2.1, adopt_parent, if_neg (hzc z hz).2.2]
    · rw [hsub, adopt_child, adopt_child]

end Store

end PtrTree
