import E9Patch.AllocValid

/-!
The two rebalancing loops. Each round is a recolouring or a rotation of the library, so that both
loops keep the tree valid, its allocations and their order, and end with a red-black tree.
-/

namespace E9Patch
open PtrTree PtrTree.Shape RedBlack

variable {τ ι : Type}

/-- A valid red-black tree with the nodes `ids` in order. -/
def Balanced (t : Tree τ ι) (ids : List Nat) : Prop :=
  ∃ s, Valid t s ∧ RBTree t.heap.color s ∧ s.inorder = ids

/-- The allocations and the nodes made so far are the same. -/
structure SameAllocs (t t' : Tree τ ι) : Prop where
  alloc : t'.heap.alloc = t.heap.alloc
  fresh : t'.heap.fresh = t.heap.fresh

theorem SameAllocs.refl (t : Tree τ ι) : SameAllocs t t := ⟨rfl, rfl⟩

theorem SameAllocs.trans {t t' t'' : Tree τ ι} (h : SameAllocs t t') (h' : SameAllocs t' t'') :
    SameAllocs t t'' := ⟨h'.alloc.trans h.alloc, h'.fresh.trans h.fresh⟩

theorem setColor_same (t : Tree τ ι) (n : Nat) (v : Color) : SameAllocs t (t.setColor n v) :=
  ⟨rfl, rfl⟩

theorem blacken_same (t : Tree τ ι) (q : Option Nat) : SameAllocs t (t.blacken q) := by
  cases q <;> exact ⟨rfl, rfl⟩

@[simp] theorem setColor_color (t : Tree τ ι) (n : Nat) (v : Color) :
    (t.setColor n v).heap.color = paint t.heap.color n v := rfl
@[simp] theorem setColor_child (t : Tree τ ι) (n : Nat) (v : Color) :
    (t.setColor n v).heap.child = t.heap.child := rfl
@[simp] theorem setColor_parent (t : Tree τ ι) (n : Nat) (v : Color) :
    (t.setColor n v).heap.parent = t.heap.parent := rfl
@[simp] theorem setColor_root (t : Tree τ ι) (n : Nat) (v : Color) :
    (t.setColor n v).root = t.root := rfl

theorem isBlack_iff {h : Heap τ ι} {q : Option Nat} : h.isBlack q = true ↔ IsBlack h.color q := by
  cases q with
  | none => simp [Heap.isBlack]
  | some n => simp [Heap.isBlack]

/-- Painting a black root black changes no colour. -/
theorem blacken_root {t : Tree τ ι} {s : Shape Nat} (hr : t.root = s.root)
    (hb : IsBlack t.heap.color s.root) : (t.blacken t.root).heap.color = t.heap.color := by
  rw [hr]
  cases hq : s.root with
  | none => rfl
  | some q =>
      rw [hq, isBlack_some] at hb
      exact paint_eq_self hb

/-- The child link that the loops test tells the side of the focus. -/
theorem side_eq {h : Heap τ ι} {t : Shape Nat} {f : Frame Nat} {c : Ctx Nat}
    (hh : h.Holds none (plug t (f :: c))) (hne : f.sib.root ≠ t.root) :
    (if h.child .left f.id = t.root then Dir.left else Dir.right) = f.dir := by
  obtain ⟨-, -, hc, hc', -⟩ := Store.holds_plug.mp hh
  obtain ⟨d, p, sib⟩ := f
  cases d with
  | left => exact if_pos hc
  | right => exact if_neg (fun e => hne (hc'.symm.trans e))

theorem root_ne_of_nodup {t : Shape Nat} {f : Frame Nat} {c : Ctx Nat} {x : Nat}
    (hn : (plug t (f :: c)).inorder.Nodup) (ht : t.root = some x) : f.sib.root ≠ t.root := by
  intro e
  refine (nodup_focus hn).2.2 x (root_mem ht) ?_
  simp [root_mem (e.trans ht)]

/-! ### Insertion -/

theorem rotate_plug {t : Tree τ ι} {d : Dir} {a b e : Shape Nat} {x y : Nat} {c : Ctx Nat}
    (h : Valid t (plug (join d a x (join d b y e)) c)) :
    Valid (Tree.rotate d t x) (plug (join d (join d a x b) y e) c) ∧
      SameAllocs t (Tree.rotate d t x) ∧ (Tree.rotate d t x).heap.color = t.heap.color :=
  ⟨(rotate_valid h).1, ⟨(rotate_valid h).2.alloc, (rotate_valid h).2.fresh⟩, (rotate_valid h).2.color⟩

/-- The outer child: the rotation at the grandparent. -/
theorem insert_rotate {t : Tree τ ι} {foc s u : Shape Nat} {d : Dir} {p g : Nat} {c : Ctx Nat}
    (hv : Valid t (plug foc (⟨d, p, s⟩ :: ⟨d, g, u⟩ :: c)))
    (hh : Hot t.heap.color foc (⟨d, p, s⟩ :: ⟨d, g, u⟩ :: c)) (hp : t.heap.color p = .red)
    (hg : t.heap.color g = .black) (hu : IsBlack t.heap.color u.root) :
    let t' := Tree.rotate d.flip ((t.setColor p .black).setColor g .red) g
    let s' := plug foc (⟨d, p, join d s g u⟩ :: c)
    Valid t' s' ∧ RBTree t'.heap.color s' ∧ t'.heap.color p = .black ∧
      s'.inorder = (plug foc (⟨d, p, s⟩ :: ⟨d, g, u⟩ :: c)).inorder ∧ SameAllocs t t' := by
  intro t' s'
  have hv' := setColor_valid (setColor_valid hv p .black) g .red
  have heq : plug foc (⟨d, p, s⟩ :: ⟨d, g, u⟩ :: c) =
      plug (join d.flip u g (join d.flip s p foc)) c := by
    simp only [plug_cons, join_flip]
  have heq' : s' = plug (join d.flip (join d.flip u g s) p foc) c := by
    simp only [s', plug_cons, join_flip]
  have hpg : p ≠ g := fun e => (nodup_frame hv.nodup).2.2 (by simp [e])
  rw [heq] at hv'
  obtain ⟨hr, hs, hcol⟩ := rotate_plug hv'
  refine ⟨heq' ▸ hr, ?_, ?_, ?_, ((setColor_same _ _ _).trans (setColor_same _ _ _)).trans hs⟩
  · rw [hcol]
    exact hh.rotate hp hg hu hv.nodup rfl
  · rw [hcol, setColor_color, setColor_color, paint_of_ne _ _ hpg, paint_self]
  · rw [heq, heq', inorder_plug_congr (inorder_rotate d.flip u g s p foc) c]

/-- Below a black node the loop stops. -/
theorem insertLoop_black {fuel : Nat} {t : Tree τ ι} {n : Nat} {foc : Shape Nat} {f : Frame Nat}
    {c : Ctx Nat} (hv : Valid t (plug foc (f :: c))) (hn : foc.root = some n)
    (hb : t.heap.color f.id = .black) : Tree.insertLoop fuel t n = t := by
  cases fuel with
  | zero => rfl
  | succ fuel =>
      have hpar : t.heap.parent n = some f.id := (Store.holds_plug.mp hv.holds).1.parent_root hn
      rw [Tree.insertLoop, hpar]
      simp [hb]

/-- A round that ends the loop: the uncle is black. -/
theorem insertSide_black {t : Tree τ ι} {foc u : Shape Nat} {f : Frame Nat} {d : Dir} {n g : Nat}
    {c : Ctx Nat} (hv : Valid t (plug foc (f :: ⟨d, g, u⟩ :: c)))
    (hh : Hot t.heap.color foc (f :: ⟨d, g, u⟩ :: c)) (hn : foc.root = some n)
    (hp : t.heap.color f.id = .red) (hg : t.heap.color g = .black)
    (hu : IsBlack t.heap.color u.root) :
    let r := Tree.insertSide d t n f.id g
    ∃ foc' f' c', Valid r.1 (plug foc' (f' :: c')) ∧ RBTree r.1.heap.color (plug foc' (f' :: c')) ∧
      foc'.root = some r.2 ∧ r.1.heap.color f'.id = .black ∧
      (plug foc' (f' :: c')).inorder = (plug foc (f :: ⟨d, g, u⟩ :: c)).inorder ∧
      SameAllocs t r.1 := by
  intro r
  obtain ⟨-, -, hcp, hcp', -⟩ := Store.holds_plug.mp hv.holds
  have hv₂ : Valid t (plug (join f.dir foc f.id f.sib) (⟨d, g, u⟩ :: c)) := hv
  have hunc : t.heap.child d.flip g = u.root := (Store.holds_plug.mp hv₂.holds).2.2.2.1
  have hclose : r = Tree.insertSide.close d t n f.id g := by
    simp only [r, Tree.insertSide, hunc]
    cases hr : u.root with
    | none => rfl
    | some w =>
        rw [hr, isBlack_some] at hu
        simp [hu]
  obtain ⟨df, p, s⟩ := f
  rcases Dir.eq_or_eq_flip d df with rfl | rfl
  · have hout : t.heap.child df.flip p ≠ some n := by
      rw [hcp', ← hn]
      exact root_ne_of_nodup hv.nodup hn
    simp only [Tree.insertSide.close, if_neg hout] at hclose
    obtain ⟨h1, h2, h3, h4, h5⟩ := insert_rotate hv hh hp hg hu
    rw [hclose]
    exact ⟨foc, _, c, h1, h2, hn, h3, h4, h5⟩
  · have hin : t.heap.child d.flip p = some n := hcp.trans hn
    simp only [Tree.insertSide.close, if_pos hin] at hclose
    obtain ⟨tl, tr, rfl⟩ : ∃ tl tr, foc = join d tl n tr := by
      cases foc with
      | nil => cases hn
      | node _ _ _ =>
          cases hn
          cases d with
          | left => exact ⟨_, _, rfl⟩
          | right => exact ⟨_, _, rfl⟩
    have heq : plug (join d tl n tr) (⟨d.flip, p, s⟩ :: ⟨d, g, u⟩ :: c) =
        plug (join d s p (join d tl n tr)) (⟨d, g, u⟩ :: c) := by
      rw [plug_cons, join_flip]
    have hids := inorder_plug_congr (inorder_rotate d s p tl n tr) (⟨d, g, u⟩ :: c)
    rw [heq] at hv
    obtain ⟨hv', hs', hcol'⟩ := rotate_plug hv
    have hturn := hh.turn hp
    have hnred : t.heap.color n = .red := by
      obtain ⟨x, hx, hxr⟩ := hh.1
      rw [root_join] at hx
      cases hx
      exact hxr
    have hv₃ : Valid (Tree.rotate d t p) (plug (join d s p tl) (⟨d, n, tr⟩ :: ⟨d, g, u⟩ :: c)) := hv'
    obtain ⟨h1, h2, h3, h4, h5⟩ := insert_rotate hv₃
      (by rw [hcol']; exact hturn) (by rw [hcol', hnred]) (by rw [hcol', hg]) (by rw [hcol']; exact hu)
    rw [hclose]
    exact ⟨_, _, c, h1, h2, root_join _ _ _ _, h3, (h4.trans hids).trans (by rw [heq]), hs'.trans h5⟩

/-- The loop of `rebalanceInsert` and the painting of the root that follows. -/
theorem insertLoop_spec {fuel : Nat} {t : Tree τ ι} {n : Nat} {foc : Shape Nat} {c : Ctx Nat}
    (hv : Valid t (plug foc c)) (hh : Hot t.heap.color foc c) (hn : foc.root = some n)
    (hf : c.length < fuel) :
    let t' := Tree.insertLoop fuel t n
    Balanced (t'.blacken t'.root) (plug foc c).inorder ∧ SameAllocs t (t'.blacken t'.root) := by
  induction fuel generalizing t n foc c with
  | zero => omega
  | succ fuel ih =>
      have hpar : t.heap.parent n = c.above :=
        (Store.holds_plug.mp hv.holds).1.parent_root hn
      -- the loop is left with a red-black tree, whose root is black
      have hdone : ∀ (t' : Tree τ ι) s', Valid t' s' → RBTree t'.heap.color s' →
          s'.inorder = (plug foc c).inorder → SameAllocs t t' →
          Balanced (t'.blacken t'.root) (plug foc c).inorder ∧
            SameAllocs t (t'.blacken t'.root) := by
        intro t' s' hv' hb hi hs
        refine ⟨⟨s', blacken_valid hv' _, ?_, hi⟩, hs.trans (blacken_same _ _)⟩
        rw [blacken_root hv'.root hb.1]
        exact hb
      cases c with
      | nil =>
          have hstop : Tree.insertLoop (fuel + 1) t n = t := by
            simp only [Tree.insertLoop, hpar, Ctx.above_nil]
          rw [hstop]
          cases foc with
          | nil => cases hn
          | node l x r =>
              refine ⟨⟨_, blacken_valid hv _, ?_, rfl⟩, blacken_same _ _⟩
              rw [hv.root]
              exact hh.exit_root hv.nodup
      | cons f c =>
          by_cases hred : t.heap.color f.id = .red
          · obtain ⟨g, c, rfl, hgb⟩ := hh.grandparent hred
            have hv₂ : Valid t (plug (join f.dir foc f.id f.sib) (g :: c)) := hv
            obtain ⟨d, g, u⟩ := g
            have hgpar : t.heap.parent f.id = some g :=
              (Store.holds_plug.mp hv₂.holds).1.parent_root (root_join _ _ _ _)
            have hside : (if t.heap.child .left g = some f.id then Dir.left else Dir.right) = d := by
              have := side_eq hv₂.holds (root_ne_of_nodup hv₂.nodup (root_join _ _ _ _))
              rwa [root_join] at this
            have hunc : t.heap.child d.flip g = u.root :=
              (Store.holds_plug.mp hv₂.holds).2.2.2.1
            have hround : Tree.insertLoop (fuel + 1) t n =
                Tree.insertLoop fuel (Tree.insertSide d t n f.id g).1
                  (Tree.insertSide d t n f.id g).2 := by
              simp only [Tree.insertLoop, hpar, Ctx.above_cons, hred, if_true, hgpar, hside]
            rw [hround]
            by_cases hu : IsBlack t.heap.color u.root
            · obtain ⟨foc', f', c', h1, h2, h3, h4, h5, h6⟩ :=
                insertSide_black hv hh hn hred hgb hu
              rw [insertLoop_black h1 h3 h4]
              exact hdone _ _ h1 h2 h5 h6
            · obtain ⟨w, hw, hwr⟩ : ∃ w, u.root = some w ∧ t.heap.color w = .red := by
                cases hr : u.root with
                | none => exact absurd (by rw [hr]; exact isBlack_none _) hu
                | some w =>
                    refine ⟨w, rfl, ?_⟩
                    rw [hr, isBlack_some] at hu
                    cases hc : t.heap.color w with
                    | black => exact absurd hc hu
                    | red => rfl
              have hrec : Tree.insertSide d t n f.id g =
                  (((t.setColor w .black).setColor f.id .black).setColor g .red, g) := by
                simp only [Tree.insertSide, hunc, hw, hwr, if_true]
              rw [hrec]
              have hv₃ : Valid t (plug (join d (join f.dir foc f.id f.sib) g u) c) := hv
              obtain ⟨h1, h2⟩ := ih
                (setColor_valid (setColor_valid (setColor_valid hv₃ w .black) f.id .black) g .red)
                (hh.recolor hred hgb hw hwr hv.nodup rfl) (root_join _ _ _ _)
                (by simp only [List.length_cons] at hf; omega)
              exact ⟨h1, h2.alloc, h2.fresh⟩
          · have hstop : Tree.insertLoop (fuel + 1) t n = t := by
              simp only [Tree.insertLoop, hpar, Ctx.above_cons, if_neg hred]
            rw [hstop]
            refine hdone t _ hv (hh.exit_black ⟨f.id, rfl, ?_⟩) rfl (SameAllocs.refl t)
            cases hc : t.heap.color f.id with
            | black => rfl
            | red => exact absurd hc hred

/-! ### Deletion -/

theorem root_plug_cons (t : Shape Nat) (f : Frame Nat) (c : Ctx Nat) :
    ∃ r, (plug t (f :: c)).root = some r ∧ r ∈ Ctx.ids (f :: c) := by
  induction c generalizing t f with
  | nil => exact ⟨f.id, by rw [plug_cons, plug_nil, root_join], by simp⟩
  | cons g c ih =>
      obtain ⟨r, hr, hm⟩ := ih (join f.dir t f.id f.sib) g
      exact ⟨r, hr, by simp only [Ctx.ids_cons] at hm ⊢; simp [hm]⟩

/-- Below a frame the node is not the root. -/
theorem root_ne_focus {t : Shape Nat} {f : Frame Nat} {c : Ctx Nat}
    (hn : (plug t (f :: c)).inorder.Nodup) : t.root ≠ (plug t (f :: c)).root := by
  obtain ⟨r, hr, hm⟩ := root_plug_cons t f c
  rw [hr]
  exact fun e => (nodup_focus hn).2.2 r (root_mem e) hm

/-- Where a round of `rebalanceRemove` leads: the loop is left with a balanced tree, or goes on at a
node that is short of one black node. -/
def Removed (t : Tree τ ι) (ids : List Nat) (foc : Shape Nat) (c : Ctx Nat)
    (r : Tree τ ι × Option Nat × Option Nat × Bool) : Prop :=
  SameAllocs t r.1 ∧
    ((r.2.2.2 = true ∧ r.2.2.1 = r.1.root ∧ Balanced r.1 ids) ∨
      (r.2.2.2 = false ∧ r.2.2.1 = foc.root ∧ r.2.1 = c.above ∧ Valid r.1 (plug foc c) ∧
        Short r.1.heap.color foc c ∧ (plug foc c).inorder = ids))

/-- The last rotation of a removal: the outer child of the sibling is red. -/
theorem remove_rotate {t : Tree τ ι} {foc s₁ s₂ : Shape Nat} {d : Dir} {p w z : Nat} {c : Ctx Nat}
    (hv : Valid t (plug foc (⟨d, p, join d s₁ w s₂⟩ :: c)))
    (hs : Short t.heap.color foc (⟨d, p, join d s₁ w s₂⟩ :: c)) (hb : IsBlack t.heap.color foc.root)
    (hw : t.heap.color w = .black) (hz : s₂.root = some z) (hzr : t.heap.color z = .red) :
    let t₁ := (t.setColor w (t.heap.color p)).setColor p .black
    let t₂ := Tree.rotate d (t₁.setColor z .black) p
    Balanced t₂ (plug foc (⟨d, p, join d s₁ w s₂⟩ :: c)).inorder ∧ SameAllocs t t₂ := by
  intro t₁ t₂
  have hv' : Valid (t₁.setColor z .black) (plug (join d foc p (join d s₁ w s₂)) c) :=
    setColor_valid (setColor_valid (setColor_valid hv _ _) _ _) _ _
  obtain ⟨h1, h2, h3⟩ := rotate_plug hv'
  refine ⟨⟨_, h1, ?_, inorder_plug_congr (inorder_rotate d foc p s₁ w s₂) c⟩, h2.alloc, h2.fresh⟩
  rw [h3]
  exact hs.rotate hb hw hz hzr hv.nodup rfl

theorem red_of_not_black {col : Nat → Color} {q : Option Nat} (h : ¬IsBlack col q) :
    ∃ x, q = some x ∧ col x = .red := by
  cases q with
  | none => exact absurd (isBlack_none col) h
  | some x =>
      refine ⟨x, rfl, ?_⟩
      rw [isBlack_some] at h
      cases hc : col x with
      | black => exact absurd hc h
      | red => rfl

theorem eq_join_of_root {t : Shape Nat} {x : Nat} (d : Dir) (h : t.root = some x) :
    ∃ a b, t = join d a x b := by
  cases t with
  | nil => cases h
  | node _ _ _ =>
      cases h
      cases d with
      | left => exact ⟨_, _, rfl⟩
      | right => exact ⟨_, _, rfl⟩

/-- A round whose sibling is black. -/
theorem removeBlackSide_spec {t : Tree τ ι} {foc s₁ s₂ : Shape Nat} {d : Dir} {p w : Nat} {c : Ctx Nat}
    (hv : Valid t (plug foc (⟨d, p, join d s₁ w s₂⟩ :: c)))
    (hs : Short t.heap.color foc (⟨d, p, join d s₁ w s₂⟩ :: c)) (hb : IsBlack t.heap.color foc.root)
    (hw : t.heap.color w = .black) :
    let r := Tree.removeBlackSide d t p w
    Removed t (plug foc (⟨d, p, join d s₁ w s₂⟩ :: c)).inorder (join d foc p (join d s₁ w s₂)) c r ∧
      (r.2.2.2 = false → r.1.heap.color = paint t.heap.color w .red) := by
  intro r
  obtain ⟨-, hpp, -, hcp', hsib, -⟩ := Store.holds_plug.mp hv.holds
  obtain ⟨-, hcw, hcw', -, -⟩ := Store.holds_join.mp hsib
  have hdone : ∀ r, SameAllocs t r.1 → r.2.2.2 = true → r.2.2.1 = r.1.root →
      Balanced r.1 (plug foc (⟨d, p, join d s₁ w s₂⟩ :: c)).inorder →
      Removed t (plug foc (⟨d, p, join d s₁ w s₂⟩ :: c)).inorder (join d foc p (join d s₁ w s₂)) c r ∧
        (r.2.2.2 = false → r.1.heap.color = paint t.heap.color w .red) :=
    fun r h1 h2 h3 h4 => ⟨⟨h1, Or.inl ⟨h2, h3, h4⟩⟩, fun h => by rw [h2] at h; cases h⟩
  simp only [r, Tree.removeBlackSide]
  rw [hcw, hcw']
  by_cases hb2 : IsBlack t.heap.color s₂.root
  · by_cases hb1 : IsBlack t.heap.color s₁.root
    · rw [if_pos ⟨isBlack_iff.mpr hb1, isBlack_iff.mpr hb2⟩]
      refine ⟨⟨⟨rfl, rfl⟩, Or.inr ⟨rfl, (root_join _ _ _ _).symm, hpp, setColor_valid hv _ _, ?_, rfl⟩⟩,
        fun _ => rfl⟩
      exact hs.climb hb hw hb1 hb2 hv.nodup rfl
    · rw [if_neg (fun h => hb1 (isBlack_iff.mp h.1)), if_pos (isBlack_iff.mpr hb2)]
      obtain ⟨v, hvr, hvred⟩ := red_of_not_black hb1
      obtain ⟨e, b, rfl⟩ := eq_join_of_root d hvr
      -- the rotation at the sibling
      have heq : plug foc (⟨d, p, join d (join d e v b) w s₂⟩ :: c) =
          plug (join d.flip s₂ w (join d.flip b v e)) (⟨d.flip, p, foc⟩ :: c) := by
        simp only [plug_cons, join_flip]
      have heq' : plug (join d.flip (join d.flip s₂ w b) v e) (⟨d.flip, p, foc⟩ :: c) =
          plug foc (⟨d, p, join d e v (join d b w s₂)⟩ :: c) := by
        simp only [plug_cons, join_flip]
      have hids : (plug foc (⟨d, p, join d e v (join d b w s₂)⟩ :: c)).inorder =
          (plug foc (⟨d, p, join d (join d e v b) w s₂⟩ :: c)).inorder := by
        rw [heq, ← heq']
        exact inorder_plug_congr (inorder_rotate d.flip s₂ w b v e) _
      obtain ⟨t₁, ht₁⟩ : ∃ t₁, t₁ = Tree.rotate d.flip ((t.setColor v .black).setColor w .red) w :=
        ⟨_, rfl⟩
      obtain ⟨hv₁, hs₁, hcol₁⟩ : Valid t₁ (plug foc (⟨d, p, join d e v (join d b w s₂)⟩ :: c)) ∧
          SameAllocs t t₁ ∧ t₁.heap.color = paint (paint t.heap.color v .black) w .red := by
        rw [ht₁]
        obtain ⟨h1, h2, h3⟩ := rotate_plug (heq ▸ setColor_valid (setColor_valid hv v .black) w .red)
        exact ⟨heq' ▸ h1, ⟨h2.alloc, h2.fresh⟩, h3⟩
      obtain ⟨hsh, hbf, hcv, hcw⟩ := hs.turn hb hw hvred hb2 hv.nodup hcol₁
      have hcp₁ : t₁.heap.child d.flip p = some v := by
        have := (Store.holds_plug.mp hv₁.holds).2.2.2.1
        rwa [root_join] at this
      obtain ⟨-, -, hcv', -, -⟩ := Store.holds_join.mp (Store.holds_plug.mp hv₁.holds).2.2.2.2.1
      rw [root_join] at hcv'
      obtain ⟨h1, h2⟩ := remove_rotate hv₁ hsh hbf hcv (root_join _ _ _ _) hcw
      simp only [root_join, Tree.blacken, ← ht₁, hcp₁, setColor_child, hcv']
      exact hdone _ (hs₁.trans h2) rfl rfl (hids ▸ h1)
  · rw [if_neg (fun h => hb2 (isBlack_iff.mp h.2)), if_neg (fun h => hb2 (isBlack_iff.mp h))]
    obtain ⟨z, hz, hzr⟩ := red_of_not_black hb2
    obtain ⟨h1, h2⟩ := remove_rotate hv hs hb hw hz hzr
    simp only [Tree.blacken, setColor_child, hcw', hz]
    exact hdone _ h2 rfl rfl h1

/-- A round that goes on does so one level up or at a red node. -/
theorem removeSide_spec {t : Tree τ ι} {foc s₁ s₂ : Shape Nat} {d : Dir} {p w : Nat} {c : Ctx Nat}
    (hv : Valid t (plug foc (⟨d, p, join d s₁ w s₂⟩ :: c)))
    (hs : Short t.heap.color foc (⟨d, p, join d s₁ w s₂⟩ :: c)) (hb : IsBlack t.heap.color foc.root) :
    let r := Tree.removeSide d t p w
    ∃ foc' c', Removed t (plug foc (⟨d, p, join d s₁ w s₂⟩ :: c)).inorder foc' c' r ∧
      (c' = c ∨ ¬IsBlack r.1.heap.color foc'.root ∨ r.2.2.2 = true) := by
  intro r
  cases hw : t.heap.color w with
  | black =>
      have hr : r = Tree.removeBlackSide d t p w := by simp [r, Tree.removeSide, hw]
      rw [hr]
      exact ⟨_, c, (removeBlackSide_spec hv hs hb hw).1, Or.inl rfl⟩
  | red =>
      obtain ⟨t₁, ht₁⟩ : ∃ t₁, t₁ = Tree.rotate d ((t.setColor w .black).setColor p .red) p := ⟨_, rfl⟩
      have hv' : Valid ((t.setColor w .black).setColor p .red)
          (plug (join d foc p (join d s₁ w s₂)) c) := setColor_valid (setColor_valid hv _ _) _ _
      obtain ⟨hv₁, hs₁, hcol₁⟩ := rotate_plug hv'
      rw [← ht₁] at hv₁ hs₁ hcol₁
      have hids := inorder_plug_congr (inorder_rotate d foc p s₁ w s₂) c
      have hv₁ : Valid t₁ (plug foc (⟨d, p, s₁⟩ :: ⟨d, w, s₂⟩ :: c)) := hv₁
      obtain ⟨hsh, hbf, hb1⟩ := hs.lift hb hw hv.nodup hcol₁
      obtain ⟨a, v, b, hsib⟩ := hsh.sibling
      simp only at hsib
      subst hsib
      have hcp : t₁.heap.child d.flip p = some v := by
        have := (Store.holds_plug.mp hv₁.holds).2.2.2.1
        rwa [root_join] at this
      rw [root_join, isBlack_some] at hb1
      have hr : r = Tree.removeBlackSide d t₁ p v := by
        simp only [r, Tree.removeSide, hw, if_true, ← ht₁, hcp]
      obtain ⟨⟨h1, h2⟩, h3⟩ := removeBlackSide_spec hv₁ hsh hbf hb1
      rw [← hr] at h1 h2 h3
      have hpv : p ≠ v := fun e => (nodup_frame hv₁.nodup).2.1 (mem_join.mpr (by simp [e]))
      have hsame : SameAllocs t r.1 := ⟨h1.alloc.trans hs₁.alloc, h1.fresh.trans hs₁.fresh⟩
      refine ⟨join d foc p (join d a v b), ⟨d, w, s₂⟩ :: c, ⟨hsame, ?_⟩, ?_⟩
      · have hids' : (plug foc (⟨d, p, join d a v b⟩ :: ⟨d, w, s₂⟩ :: c)).inorder =
            (plug foc (⟨d, p, join d (join d a v b) w s₂⟩ :: c)).inorder := hids
        rw [← hids']
        exact h2
      · cases htrue : r.2.2.2 with
        | true => exact Or.inr (Or.inr rfl)
        | false =>
            refine Or.inr (Or.inl ?_)
            rw [h3 htrue, root_join, isBlack_some, paint_of_ne _ _ hpv, hcol₁, setColor_color,
              paint_self]
            decide

/-- A red node stops the loop. -/
theorem removeLoop_red {fuel : Nat} {t : Tree τ ι} {parent n : Option Nat}
    (hn : ¬IsBlack t.heap.color n) : Tree.removeLoop fuel t parent n = (t, n) := by
  cases fuel with
  | zero => rfl
  | succ fuel =>
      have hcond : ¬(t.heap.isBlack n = true ∧ n ≠ t.root) := fun h => hn (isBlack_iff.mp h.1)
      simp only [Tree.removeLoop, if_neg hcond]

theorem short_red {t : Tree τ ι} {foc : Shape Nat} {c : Ctx Nat} (hv : Valid t (plug foc c))
    (hs : Short t.heap.color foc c) (hb : ¬IsBlack t.heap.color foc.root) :
    Balanced (t.blacken foc.root) (plug foc c).inorder := by
  obtain ⟨x, hx, hxr⟩ := red_of_not_black hb
  cases foc with
  | nil => cases hx
  | node l y r =>
      cases hx
      exact ⟨_, blacken_valid hv _, hs.exit_red hxr hv.nodup, rfl⟩

/-- The loop of `rebalanceRemove` and the painting of its last node. -/
theorem removeLoop_spec {fuel : Nat} {t : Tree τ ι} {foc : Shape Nat} {c : Ctx Nat}
    (hv : Valid t (plug foc c)) (hs : Short t.heap.color foc c) (hf : c.length < fuel) :
    let r := Tree.removeLoop fuel t c.above foc.root
    Balanced (r.1.blacken r.2) (plug foc c).inorder ∧ SameAllocs t (r.1.blacken r.2) := by
  induction fuel generalizing t foc c with
  | zero => omega
  | succ fuel ih =>
      by_cases hb : IsBlack t.heap.color foc.root
      swap
      · rw [removeLoop_red hb]
        exact ⟨short_red hv hs hb, blacken_same _ _⟩
      have hblack : ∀ (t' : Tree τ ι) ids, Balanced t' ids → Balanced (t'.blacken t'.root) ids := by
        rintro t' ids ⟨s', hv', hrb, hi⟩
        refine ⟨s', blacken_valid hv' _, ?_, hi⟩
        rw [blacken_root hv'.root hrb.1]
        exact hrb
      cases c with
      | nil =>
          have hstop : Tree.removeLoop (fuel + 1) t (Ctx.above []) foc.root = (t, foc.root) := by
            have hcond : ¬(t.heap.isBlack foc.root = true ∧ foc.root ≠ t.root) :=
              fun h => h.2 hv.root.symm
            simp only [Tree.removeLoop, if_neg hcond]
          rw [hstop]
          have hr : foc.root = t.root := hv.root.symm
          rw [hr]
          exact ⟨hblack t _ ⟨foc, hv, hs.exit_root hb, rfl⟩, blacken_same _ _⟩
      | cons f c =>
          obtain ⟨s₁, w, s₂, hsib⟩ := hs.sibling
          obtain ⟨d, p, sib⟩ := f
          obtain rfl : sib = join d s₁ w s₂ := hsib
          have hside := side_eq hv.holds (f := ⟨d, p, join d s₁ w s₂⟩) (by
            rw [root_join]
            exact fun e => root_ne_of_nodup hv.nodup e.symm (by rw [root_join, e]))
          have hcp : t.heap.child d.flip p = some w := by
            have := (Store.holds_plug.mp hv.holds).2.2.2.1
            rwa [root_join] at this
          have hround : Tree.removeLoop (fuel + 1) t (some p) foc.root =
              let r := Tree.removeSide d t p w
              if r.2.2.2 then (r.1, r.2.2.1) else Tree.removeLoop fuel r.1 r.2.1 r.2.2.1 := by
            have hcond : t.heap.isBlack foc.root = true ∧ foc.root ≠ t.root :=
              ⟨isBlack_iff.mpr hb, by rw [hv.root]; exact root_ne_focus hv.nodup⟩
            simp only [Tree.removeLoop, if_pos hcond, hside, hcp]
          rw [Ctx.above_cons, hround]
          obtain ⟨foc', c', ⟨hsame, hr⟩, hnext⟩ := removeSide_spec hv hs hb
          rcases hr with ⟨h1, h2, h3⟩ | ⟨h1, h2, h3, h4, h5, h6⟩
          · simp only [h1, if_true]
            rw [h2]
            exact ⟨hblack _ _ h3, hsame.trans (blacken_same _ _)⟩
          · simp only [h1, h2, h3]
            rw [← h6]
            rcases hnext with rfl | hred | htrue
            · obtain ⟨h7, h8⟩ := ih h4 h5 (by simpa using hf)
              exact ⟨h7, hsame.trans h8⟩
            · rw [if_neg (by simp), removeLoop_red hred]
              exact ⟨short_red h4 h5 hred, hsame.trans (blacken_same _ _)⟩
            · rw [h1] at htrue
              cases htrue

end E9Patch
