import E9Patch.PtrTree

/-!
Red-black balance of a tree with a hole. The colours are a map on the nodes, as a program keeps
them, so that recolouring is an update of the map and leaves the shape alone. `Bal` is the balance of
a subtree, `BalCtx` that of the path above it, and each step of the two rebalancing loops is a lemma
that takes `Hot` (a red node that may have a red parent) or `Short` (a subtree one black node short)
to the state after the step.
-/

namespace RedBlack
open PtrTree PtrTree.Shape

inductive Color where
  | black
  | red
  deriving DecidableEq, Repr

variable {ι : Type}

/-- A missing node counts as black. -/
def IsBlack (col : ι → Color) (q : Option ι) : Prop := ∀ x, q = some x → col x = .black

/-- What a node adds to the black height. -/
def weight (col : ι → Color) (x : ι) : Nat := if col x = .black then 1 else 0

/-- No red node has a red child, and every path down has `n` black nodes. -/
def Bal (col : ι → Color) : Shape ι → Nat → Prop
  | .nil, n => n = 0
  | .node l x r, n => (col x = .red → IsBlack col l.root ∧ IsBlack col r.root) ∧
      ∃ m, n = m + weight col x ∧ Bal col l m ∧ Bal col r m

/-- There is a node above the hole and it is black. -/
def BlackAbove (col : ι → Color) (c : Ctx ι) : Prop := ∃ p, Ctx.above c = some p ∧ col p = .black

/-- The context is balanced around a hole of black height `n`; its topmost node is black. -/
def BalCtx (col : ι → Color) : Ctx ι → Nat → Prop
  | [], _ => True
  | f :: c, n => Bal col f.sib n ∧ (col f.id = .red → IsBlack col f.sib.root ∧ BlackAbove col c) ∧
      BalCtx col c (n + weight col f.id)

/-- A red-black tree: balanced, with a black root. -/
def RBTree (col : ι → Color) (t : Shape ι) : Prop := IsBlack col t.root ∧ ∃ n, Bal col t n

theorem weight_black {col : ι → Color} {x : ι} (h : col x = .black) : weight col x = 1 := if_pos h
theorem weight_red {col : ι → Color} {x : ι} (h : col x = .red) : weight col x = 0 :=
  if_neg (by rw [h]; decide)

@[simp] theorem isBlack_none (col : ι → Color) : IsBlack col none := fun _ h => by cases h
@[simp] theorem isBlack_some {col : ι → Color} {x : ι} : IsBlack col (some x) ↔ col x = .black :=
  ⟨fun h => h x rfl, fun h _ hx => by cases hx; exact h⟩

theorem IsBlack.congr {col col' : ι → Color} {q : Option ι} (h : IsBlack col q)
    (hc : ∀ z, q = some z → col' z = col z) : IsBlack col' q :=
  fun z hz => by rw [hc z hz, h z hz]

@[simp] theorem bal_nil {col : ι → Color} {n : Nat} : Bal col .nil n ↔ n = 0 := Iff.rfl

theorem bal_join {col : ι → Color} {d : Dir} {a b : Shape ι} {x : ι} {n : Nat} :
    Bal col (join d a x b) n ↔ (col x = .red → IsBlack col a.root ∧ IsBlack col b.root) ∧
      ∃ m, n = m + weight col x ∧ Bal col a m ∧ Bal col b m := by
  cases d with
  | left => rfl
  | right =>
      simp only [join, Bal]
      constructor
      · rintro ⟨hx, m, hm, h1, h2⟩
        exact ⟨fun h => (hx h).symm, m, hm, h2, h1⟩
      · rintro ⟨hx, m, hm, h1, h2⟩
        exact ⟨fun h => (hx h).symm, m, hm, h2, h1⟩

theorem bal_join_black {col : ι → Color} {d : Dir} {a b : Shape ι} {x : ι} {n : Nat}
    (hx : col x = .black) (ha : Bal col a n) (hb : Bal col b n) :
    Bal col (join d a x b) (n + 1) :=
  bal_join.mpr ⟨fun h => absurd (hx.symm.trans h) (by decide), n, by rw [weight_black hx], ha, hb⟩

theorem bal_join_red {col : ι → Color} {d : Dir} {a b : Shape ι} {x : ι} {n : Nat}
    (hx : col x = .red) (ha : Bal col a n) (hb : Bal col b n) (hra : IsBlack col a.root)
    (hrb : IsBlack col b.root) : Bal col (join d a x b) n :=
  bal_join.mpr ⟨fun _ => ⟨hra, hrb⟩, n, by rw [weight_red hx]; rfl, ha, hb⟩

theorem Bal.of_join_black {col : ι → Color} {d : Dir} {a b : Shape ι} {x : ι} {n : Nat}
    (h : Bal col (join d a x b) (n + 1)) (hx : col x = .black) : Bal col a n ∧ Bal col b n := by
  obtain ⟨-, m, hm, ha, hb⟩ := bal_join.mp h
  rw [weight_black hx] at hm
  obtain rfl : n = m := by omega
  exact ⟨ha, hb⟩

theorem Bal.of_join_red {col : ι → Color} {d : Dir} {a b : Shape ι} {x : ι} {n : Nat}
    (h : Bal col (join d a x b) n) (hx : col x = .red) :
    Bal col a n ∧ Bal col b n ∧ IsBlack col a.root ∧ IsBlack col b.root := by
  obtain ⟨hr, m, rfl, ha, hb⟩ := bal_join.mp h
  rw [weight_red hx]
  exact ⟨ha, hb, (hr hx).1, (hr hx).2⟩

theorem Bal.congr {col col' : ι → Color} {t : Shape ι} {n : Nat} (h : Bal col t n)
    (hc : ∀ z ∈ t.inorder, col' z = col z) : Bal col' t n := by
  induction t generalizing n with
  | nil => exact h
  | node l x r ihl ihr =>
      have hl : ∀ z ∈ l.inorder, col' z = col z := fun z hz => hc z (by simp [hz])
      have hr : ∀ z ∈ r.inorder, col' z = col z := fun z hz => hc z (by simp [hz])
      have hx : col' x = col x := hc x (by simp)
      obtain ⟨hb, m, hm, h1, h2⟩ := h
      refine ⟨fun h => ?_, m, by rw [hm, weight, weight, hx], ihl h1 hl, ihr h2 hr⟩
      obtain ⟨hbl, hbr⟩ := hb (hx ▸ h)
      exact ⟨hbl.congr (fun z hz => hl z (root_mem hz)), hbr.congr (fun z hz => hr z (root_mem hz))⟩

theorem BalCtx.congr {col col' : ι → Color} {c : Ctx ι} {n : Nat} (h : BalCtx col c n)
    (hc : ∀ z ∈ Ctx.ids c, col' z = col z) : BalCtx col' c n := by
  induction c generalizing n with
  | nil => trivial
  | cons f c ih =>
      have hf : col' f.id = col f.id := hc _ (by simp)
      have hs : ∀ z ∈ f.sib.inorder, col' z = col z := fun z hz => hc z (by simp [hz])
      have hids : ∀ z ∈ Ctx.ids c, col' z = col z := fun z hz => hc z (by simp [hz])
      obtain ⟨h1, h2, h3⟩ := h
      refine ⟨h1.congr hs, fun h => ?_, ?_⟩
      · obtain ⟨hb, p, hp, hpb⟩ := h2 (hf ▸ h)
        exact ⟨hb.congr (fun z hz => hs z (root_mem hz)), p, hp,
          by rw [hids p (Ctx.above_mem hp), hpb]⟩
      · rw [weight, hf]
        exact ih h3 hids

/-- A tree is a red-black tree when its focus and its context are balanced and the focus does not put
a red node below a red one or at the root. -/
theorem rbTree_plug {col : ι → Color} {t : Shape ι} {c : Ctx ι} :
    RBTree col (plug t c) ↔ (BlackAbove col c ∨ IsBlack col t.root) ∧
      ∃ n, Bal col t n ∧ BalCtx col c n := by
  induction c generalizing t with
  | nil => simp [RBTree, BalCtx, BlackAbove]
  | cons f c ih =>
      obtain ⟨d, p, sib⟩ := f
      rw [plug_cons, ih]
      simp only [root_join, isBlack_some, bal_join, BalCtx]
      constructor
      · rintro ⟨hab, n, ⟨hred, m, rfl, ht, hs⟩, hc⟩
        rcases hp : col p with _ | _
        · exact ⟨Or.inl ⟨p, rfl, hp⟩, m, ht, hs, (fun h => by cases h), hc⟩
        · obtain ⟨htb, hsb⟩ := hred hp
          refine ⟨Or.inr htb, m, ht, hs, fun _ => ⟨hsb, ?_⟩, hc⟩
          exact hab.resolve_right (by rw [hp]; decide)
      · rintro ⟨hab, m, ht, hs, hred, hc⟩
        rcases hp : col p with _ | _
        · exact ⟨Or.inr rfl, _, ⟨(fun h => by cases h), m, rfl, ht, hs⟩, hc⟩
        · have htb : IsBlack col t.root := by
            refine hab.resolve_left ?_
            rintro ⟨q, hq, hqb⟩
            cases hq
            rw [hp] at hqb
            cases hqb
          exact ⟨Or.inl (hred hp).2, _, ⟨fun _ => ⟨htb, (hred hp).1⟩, m, rfl, ht, hs⟩, hc⟩

/-! ### Insertion -/

/-- The focus is balanced with a red root; the node above may be red too. -/
def Hot (col : ι → Color) (t : Shape ι) (c : Ctx ι) : Prop :=
  (∃ x, t.root = some x ∧ col x = .red) ∧ ∃ n, Bal col t n ∧ BalCtx col c n

/-- The loop is left below a black node. -/
theorem Hot.exit_black {col : ι → Color} {t : Shape ι} {c : Ctx ι} (h : Hot col t c)
    (hc : BlackAbove col c) : RBTree col (plug t c) :=
  rbTree_plug.mpr ⟨Or.inl hc, h.2⟩

/-- A red parent is not the root: there is a black node above it. -/
theorem Hot.grandparent {col : ι → Color} {t : Shape ι} {f : Frame ι} {c : Ctx ι}
    (h : Hot col t (f :: c)) (hf : col f.id = .red) :
    ∃ g c', c = g :: c' ∧ col g.id = .black := by
  obtain ⟨-, n, -, -, hred, -⟩ := h
  obtain ⟨-, p, hp, hpb⟩ := hred hf
  cases c with
  | nil => cases hp
  | cons g c' =>
      cases hp
      exact ⟨g, c', rfl, hpb⟩

variable [DecidableEq ι]

/-- The colour map after one node is painted. -/
def paint (col : ι → Color) (x : ι) (v : Color) : ι → Color := fun z => if z = x then v else col z

@[simp] theorem paint_self (col : ι → Color) (x : ι) (v : Color) : paint col x v x = v := if_pos rfl
theorem paint_of_ne (col : ι → Color) {x z : ι} (v : Color) (h : z ≠ x) :
    paint col x v z = col z := if_neg h

theorem paint_eq_self {col : ι → Color} {x : ι} {v : Color} (h : col x = v) : paint col x v = col := by
  funext z
  by_cases hz : z = x
  · rw [hz, paint_self, h]
  · exact paint_of_ne col v hz

/-- The loop is left at the root, which is painted black. -/
theorem Hot.exit_root {col : ι → Color} {l r : Shape ι} {x : ι} (h : Hot col (.node l x r) [])
    (hn : (Shape.node l x r).inorder.Nodup) : RBTree (paint col x .black) (.node l x r) := by
  obtain ⟨⟨_, hx, hred⟩, n, hb, -⟩ := h
  cases hx
  obtain ⟨hl, hr, -, -⟩ := Bal.of_join_red (d := .left) hb hred
  simp only [inorder_node, List.nodup_append, List.nodup_cons, List.mem_cons] at hn
  refine ⟨by simp, n + 1, bal_join_black (d := .left) (paint_self _ _ _) ?_ ?_⟩
  · exact hl.congr (fun z hz => paint_of_ne _ _ (hn.2.2 z hz x (Or.inl rfl)))
  · exact hr.congr (fun z hz => paint_of_ne _ _ (fun e => hn.2.1.1 (e ▸ hz)))

/-- The uncle is red: parent and uncle turn black, the grandparent red, and the loop climbs. -/
theorem Hot.recolor {col col' : ι → Color} {t u : Shape ι} {f : Frame ι} {d : Dir} {g : ι} {c : Ctx ι}
    {w : ι} (h : Hot col t (f :: ⟨d, g, u⟩ :: c)) (hf : col f.id = .red) (hg : col g = .black)
    (hu : u.root = some w) (hw : col w = .red)
    (hn : (plug t (f :: ⟨d, g, u⟩ :: c)).inorder.Nodup)
    (hcol : col' = paint (paint (paint col w .black) f.id .black) g .red) :
    Hot col' (join d (join f.dir t f.id f.sib) g u) c := by
  obtain ⟨-, n, ht, hs, -, hu', -, hc⟩ := h
  obtain ⟨dp, p, s⟩ := f
  rw [nodup_plug] at hn
  simp only [Ctx.ids_cons, List.nodup_append, List.nodup_cons, List.mem_append, List.mem_cons] at hn
  obtain ⟨ul, ur, rfl⟩ : ∃ ul ur, u = .node ul w ur := by
    cases u with
    | nil => cases hu
    | node ul x ur => cases hu; exact ⟨ul, ur, rfl⟩
  simp only [weight_red hf, Nat.add_zero] at hs hu' hc
  obtain ⟨hul, hur, -, -⟩ := Bal.of_join_red (d := .left) hu' hw
  rw [weight_black hg] at hc
  have hpg : p ≠ g := by grind
  have hwg : w ≠ g := by grind [inorder_node]
  have hwp : w ≠ p := by grind [inorder_node]
  have hc' : ∀ z, z ≠ w → z ≠ p → z ≠ g → col' z = col z := by
    intro z h1 h2 h3
    rw [hcol, paint_of_ne _ _ h3, paint_of_ne _ _ h2, paint_of_ne _ _ h1]
  have hcp : col' p = .black := by rw [hcol, paint_of_ne _ _ hpg, paint_self]
  have hcw : col' w = .black := by
    rw [hcol, paint_of_ne _ _ hwg, paint_of_ne _ _ hwp, paint_self]
  have hcg : col' g = .red := by rw [hcol, paint_self]
  refine ⟨⟨g, root_join _ _ _ _, hcg⟩, n + 1, bal_join_red hcg ?_ ?_ ?_ ?_, ?_⟩
  · refine bal_join_black hcp (ht.congr (fun z hz => hc' z ?_ ?_ ?_))
      (hs.congr (fun z hz => hc' z ?_ ?_ ?_)) <;> grind [inorder_node]
  · refine bal_join_black (d := .left) hcw (hul.congr (fun z hz => hc' z ?_ ?_ ?_))
      (hur.congr (fun z hz => hc' z ?_ ?_ ?_)) <;> grind [inorder_node]
  · rw [root_join, isBlack_some, hcp]
  · exact isBlack_some.mpr hcw
  · exact hc.congr (fun z hz => hc' z (by grind [inorder_node]) (by grind) (by grind))

omit [DecidableEq ι] in
/-- The node is the inner child: after the rotation at its parent the two have changed places and the
new focus is the outer child. -/
theorem Hot.turn {col : ι → Color} {d : Dir} {s tl tr : Shape ι} {p n : ι} {c : Ctx ι}
    (h : Hot col (join d tl n tr) (⟨d.flip, p, s⟩ :: c)) (hp : col p = .red) :
    Hot col (join d s p tl) (⟨d, n, tr⟩ :: c) := by
  obtain ⟨⟨_, hx, hred⟩, m, ht, hs, hctx, hc⟩ := h
  rw [root_join] at hx
  cases hx
  obtain ⟨hl, hr, hlb, hrb⟩ := ht.of_join_red hred
  obtain ⟨hsb, hab⟩ := hctx hp
  rw [weight_red hp] at hc
  refine ⟨⟨p, root_join _ _ _ _, hp⟩, m, bal_join_red hp hs hl hsb hlb, hr, fun _ => ⟨hrb, hab⟩, ?_⟩
  rw [weight_red hred]
  exact hc

/-- The uncle is black and the node the outer child: the rotation at the grandparent ends the loop. -/
theorem Hot.rotate {col col' : ι → Color} {t s u : Shape ι} {d : Dir} {p g : ι} {c : Ctx ι}
    (h : Hot col t (⟨d, p, s⟩ :: ⟨d, g, u⟩ :: c)) (hp : col p = .red) (hg : col g = .black)
    (hu : IsBlack col u.root) (hn : (plug t (⟨d, p, s⟩ :: ⟨d, g, u⟩ :: c)).inorder.Nodup)
    (hcol : col' = paint (paint col p .black) g .red) :
    RBTree col' (plug (join d t p (join d s g u)) c) := by
  obtain ⟨-, n, ht, hs, hpred, hu', -, hc⟩ := h
  rw [nodup_plug] at hn
  simp only [Ctx.ids_cons, List.nodup_append, List.nodup_cons, List.mem_append, List.mem_cons] at hn
  simp only [weight_red hp, Nat.add_zero] at hs hu' hc hpred
  rw [weight_black hg] at hc
  have hpg : p ≠ g := by grind
  have hc' : ∀ z, z ≠ p → z ≠ g → col' z = col z := fun z h1 h2 => by
    rw [hcol, paint_of_ne _ _ h2, paint_of_ne _ _ h1]
  have hcp : col' p = .black := by rw [hcol, paint_of_ne _ _ hpg, paint_self]
  have hcg : col' g = .red := by rw [hcol, paint_self]
  have hzt : ∀ z ∈ t.inorder, col' z = col z := fun z hz => hc' z (by grind) (by grind)
  have hzs : ∀ z ∈ s.inorder, col' z = col z := fun z hz => hc' z (by grind) (by grind)
  have hzu : ∀ z ∈ u.inorder, col' z = col z := fun z hz => hc' z (by grind) (by grind)
  have hzc : ∀ z ∈ Ctx.ids c, col' z = col z := fun z hz => hc' z (by grind) (by grind)
  refine rbTree_plug.mpr ⟨Or.inr (by rw [root_join, isBlack_some, hcp]), n + 1, ?_, hc.congr hzc⟩
  refine bal_join_black hcp (ht.congr hzt) (bal_join_red hcg (hs.congr hzs) (hu'.congr hzu) ?_ ?_)
  · exact (hpred hp).1.congr (fun z hz => hzs z (root_mem hz))
  · exact hu.congr (fun z hz => hzu z (root_mem hz))

/-! ### Deletion -/

/-- The focus is one black node short of what its context expects, or it has a red root that makes up
for it once it is painted black. -/
def Short (col : ι → Color) (t : Shape ι) (c : Ctx ι) : Prop :=
  ∃ n, BalCtx col c (n + 1) ∧ ((IsBlack col t.root ∧ Bal col t n) ∨
    ∃ l x r, t = .node l x r ∧ col x = .red ∧ Bal col l n ∧ Bal col r n)

/-- The loop is left at a red node, which is painted black. -/
theorem Short.exit_red {col : ι → Color} {l r : Shape ι} {x : ι} {c : Ctx ι}
    (h : Short col (.node l x r) c) (hx : col x = .red) (hn : (plug (.node l x r) c).inorder.Nodup) :
    RBTree (paint col x .black) (plug (.node l x r) c) := by
  obtain ⟨n, hc, h⟩ := h
  have hlr : Bal col l n ∧ Bal col r n := by
    rcases h with ⟨hb, -⟩ | ⟨_, _, _, heq, -, hl, hr⟩
    · rw [root_node, isBlack_some, hx] at hb
      cases hb
    · cases heq
      exact ⟨hl, hr⟩
  rw [nodup_plug] at hn
  simp only [inorder_node, List.nodup_append, List.nodup_cons, List.mem_append, List.mem_cons] at hn
  have hz : ∀ z, z ≠ x → paint col x .black z = col z := fun z => paint_of_ne _ _
  refine rbTree_plug.mpr ⟨Or.inr (by simp), n + 1, bal_join_black (d := .left) (paint_self _ _ _)
    (hlr.1.congr fun z hm => hz z ?_) (hlr.2.congr fun z hm => hz z ?_), hc.congr fun z hm => hz z ?_⟩
    <;> grind

omit [DecidableEq ι] in
/-- The loop is left at the root, black already. -/
theorem Short.exit_root {col : ι → Color} {t : Shape ι} (h : Short col t [])
    (ht : IsBlack col t.root) : RBTree col t := by
  obtain ⟨n, -, ⟨-, hb⟩ | ⟨_, x, _, rfl, hx, -⟩⟩ := h
  · exact ⟨ht, n, hb⟩
  · rw [root_node, isBlack_some, hx] at ht
    cases ht

omit [DecidableEq ι] in
/-- Below a node on a short path the sibling is there. -/
theorem Short.sibling {col : ι → Color} {t : Shape ι} {f : Frame ι} {c : Ctx ι}
    (h : Short col t (f :: c)) : ∃ s₁ w s₂, f.sib = join f.dir s₁ w s₂ := by
  obtain ⟨n, ⟨hs, -⟩, -⟩ := h
  obtain ⟨d, p, sib⟩ := f
  cases sib with
  | nil => cases hs
  | node l w r => cases d <;> exact ⟨_, w, _, rfl⟩

omit [DecidableEq ι] in
/-- The black focus of a short path is balanced. -/
theorem Short.focus {col : ι → Color} {t : Shape ι} {c : Ctx ι} (h : Short col t c)
    (ht : IsBlack col t.root) : ∃ n, Bal col t n ∧ BalCtx col c (n + 1) := by
  obtain ⟨n, hc, ⟨-, hb⟩ | ⟨_, x, _, rfl, hx, -⟩⟩ := h
  · exact ⟨n, hb, hc⟩
  · rw [root_node, isBlack_some, hx] at ht
    cases ht

/-- The sibling is red: the rotation at the parent brings a black sibling under a red parent. -/
theorem Short.lift {col col' : ι → Color} {t s₁ s₂ : Shape ι} {d : Dir} {p w : ι} {c : Ctx ι}
    (h : Short col t (⟨d, p, join d s₁ w s₂⟩ :: c)) (ht : IsBlack col t.root) (hw : col w = .red)
    (hn : (plug t (⟨d, p, join d s₁ w s₂⟩ :: c)).inorder.Nodup)
    (hcol : col' = paint (paint col w .black) p .red) :
    Short col' t (⟨d, p, s₁⟩ :: ⟨d, w, s₂⟩ :: c) ∧ IsBlack col' t.root ∧ IsBlack col' s₁.root := by
  obtain ⟨n, hb, hs, hpred, hc⟩ := h.focus ht
  obtain ⟨h1, h2, hb1, hb2⟩ := hs.of_join_red hw
  have hp : col p = .black := by
    rcases hp : col p with _ | _
    · rfl
    · have := (hpred hp).1
      rw [root_join, isBlack_some, hw] at this
      cases this
  rw [weight_black hp] at hc
  rw [nodup_plug] at hn
  simp only [Ctx.ids_cons, ((inorder_join_perm d s₁ w s₂).append_right _).nodup_iff,
    List.nodup_append, List.nodup_cons, List.mem_append, List.mem_cons, mem_join] at hn
  have hwp : w ≠ p := by grind
  have hc' : ∀ z, z ≠ w → z ≠ p → col' z = col z := fun z h1 h2 => by
    rw [hcol, paint_of_ne _ _ h2, paint_of_ne _ _ h1]
  have hcp : col' p = .red := by rw [hcol, paint_self]
  have hcw : col' w = .black := by rw [hcol, paint_of_ne _ _ hwp, paint_self]
  have hzt : ∀ z ∈ t.inorder, col' z = col z := fun z hz => hc' z (by grind) (by grind)
  have hz1 : ∀ z ∈ s₁.inorder, col' z = col z := fun z hz => hc' z (by grind) (by grind)
  have hz2 : ∀ z ∈ s₂.inorder, col' z = col z := fun z hz => hc' z (by grind) (by grind)
  have hzc : ∀ z ∈ Ctx.ids c, col' z = col z := fun z hz => hc' z (by grind) (by grind)
  have htb' : IsBlack col' t.root := ht.congr fun z hz => hzt z (root_mem hz)
  have hb1' : IsBlack col' s₁.root := hb1.congr fun z hz => hz1 z (root_mem hz)
  refine ⟨⟨n, ⟨h1.congr hz1, fun _ => ⟨hb1', w, rfl, hcw⟩, ?_⟩, Or.inl ⟨htb', hb.congr hzt⟩⟩,
    htb', hb1'⟩
  rw [weight_red hcp, BalCtx, weight_black hcw]
  exact ⟨h2.congr hz2, fun h => absurd (hcw.symm.trans h) (by decide), hc.congr hzc⟩

/-- The sibling and both its children are black: it turns red and the loop climbs. -/
theorem Short.climb {col col' : ι → Color} {t s₁ s₂ : Shape ι} {d : Dir} {p w : ι} {c : Ctx ι}
    (h : Short col t (⟨d, p, join d s₁ w s₂⟩ :: c)) (ht : IsBlack col t.root) (hw : col w = .black)
    (hb1 : IsBlack col s₁.root) (hb2 : IsBlack col s₂.root)
    (hn : (plug t (⟨d, p, join d s₁ w s₂⟩ :: c)).inorder.Nodup) (hcol : col' = paint col w .red) :
    Short col' (join d t p (join d s₁ w s₂)) c := by
  obtain ⟨n, hb, hs, hpred, hc⟩ := h.focus ht
  obtain ⟨h1, h2⟩ := hs.of_join_black hw
  rw [nodup_plug] at hn
  simp only [Ctx.ids_cons, ((inorder_join_perm d s₁ w s₂).append_right _).nodup_iff,
    List.nodup_append, List.nodup_cons, List.mem_append, List.mem_cons, mem_join] at hn
  have hpw : p ≠ w := by grind
  have hc' : ∀ z, z ≠ w → col' z = col z := fun z h1 => by rw [hcol, paint_of_ne _ _ h1]
  have hcw : col' w = .red := by rw [hcol, paint_self]
  have hzt : ∀ z ∈ t.inorder, col' z = col z := fun z hz => hc' z (by grind)
  have hz1 : ∀ z ∈ s₁.inorder, col' z = col z := fun z hz => hc' z (by grind)
  have hz2 : ∀ z ∈ s₂.inorder, col' z = col z := fun z hz => hc' z (by grind)
  have hzc : ∀ z ∈ Ctx.ids c, col' z = col z := fun z hz => hc' z (by grind)
  have hsib : Bal col' (join d s₁ w s₂) n :=
    bal_join_red hcw (h1.congr hz1) (h2.congr hz2) (hb1.congr fun z hz => hz1 z (root_mem hz))
      (hb2.congr fun z hz => hz2 z (root_mem hz))
  rcases hp : col p with _ | _
  · have hcp : col' p = .black := by rw [hc' p hpw, hp]
    rw [weight_black hp] at hc
    exact ⟨n + 1, hc.congr hzc, Or.inl ⟨by rw [root_join, isBlack_some, hcp],
      bal_join_black hcp (hb.congr hzt) hsib⟩⟩
  · have hcp : col' p = .red := by rw [hc' p hpw, hp]
    rw [weight_red hp] at hc
    refine ⟨n, hc.congr hzc, Or.inr ?_⟩
    cases d with
    | left => exact ⟨_, p, _, rfl, hcp, hb.congr hzt, hsib⟩
    | right => exact ⟨_, p, _, rfl, hcp, hsib, hb.congr hzt⟩

/-- The outer child of the sibling is black: the rotation at the sibling makes its place red. -/
theorem Short.turn {col col' : ι → Color} {t b e s₂ : Shape ι} {d : Dir} {p w v : ι} {c : Ctx ι}
    (h : Short col t (⟨d, p, join d (join d e v b) w s₂⟩ :: c)) (ht : IsBlack col t.root)
    (hw : col w = .black) (hv : col v = .red) (hb2 : IsBlack col s₂.root)
    (hn : (plug t (⟨d, p, join d (join d e v b) w s₂⟩ :: c)).inorder.Nodup)
    (hcol : col' = paint (paint col v .black) w .red) :
    Short col' t (⟨d, p, join d e v (join d b w s₂)⟩ :: c) ∧ IsBlack col' t.root ∧
      col' v = .black ∧ col' w = .red := by
  obtain ⟨n, hb, hs, hpred, hc⟩ := h.focus ht
  obtain ⟨h1, h2⟩ := hs.of_join_black hw
  obtain ⟨he, hb', heb, hbb⟩ := h1.of_join_red hv
  rw [nodup_plug] at hn
  simp only [Ctx.ids_cons, List.nodup_append, List.nodup_cons, List.mem_append, List.mem_cons,
    mem_join] at hn
  obtain ⟨hnt, ⟨hnp, hns, hnc, hnsc⟩, hntc⟩ := hn
  simp only [(inorder_join_perm d (join d e v b) w s₂).nodup_iff,
    ((inorder_join_perm d e v b).append_right _).nodup_iff, List.nodup_append, List.nodup_cons,
    List.mem_append, List.mem_cons] at hns
  have hvw : v ≠ w := by grind
  have hpv : p ≠ v := by grind
  have hpw : p ≠ w := by grind
  have hc' : ∀ z, z ≠ v → z ≠ w → col' z = col z := fun z h1 h2 => by
    rw [hcol, paint_of_ne _ _ h2, paint_of_ne _ _ h1]
  have hcw : col' w = .red := by rw [hcol, paint_self]
  have hcv : col' v = .black := by rw [hcol, paint_of_ne _ _ hvw, paint_self]
  have hzt : ∀ z ∈ t.inorder, col' z = col z := fun z hz => hc' z (by grind) (by grind)
  have hze : ∀ z ∈ e.inorder, col' z = col z := fun z hz => hc' z (by grind) (by grind)
  have hzb : ∀ z ∈ b.inorder, col' z = col z := fun z hz => hc' z (by grind) (by grind)
  have hz2 : ∀ z ∈ s₂.inorder, col' z = col z := fun z hz => hc' z (by grind) (by grind)
  have hzc : ∀ z ∈ Ctx.ids c, col' z = col z := fun z hz => hc' z (by grind) (by grind)
  have htb' : IsBlack col' t.root := ht.congr fun z hz => hzt z (root_mem hz)
  have hcp : col' p = col p := hc' p hpv hpw
  refine ⟨⟨n, ⟨?_, fun h => ⟨by rw [root_join, isBlack_some, hcv], ?_⟩, ?_⟩,
    Or.inl ⟨htb', hb.congr hzt⟩⟩, htb', hcv, hcw⟩
  · exact bal_join_black hcv (he.congr hze) (bal_join_red hcw (hb'.congr hzb) (h2.congr hz2)
      (hbb.congr fun z hz => hzb z (root_mem hz)) (hb2.congr fun z hz => hz2 z (root_mem hz)))
  · obtain ⟨q, hq, hqb⟩ := (hpred (hcp ▸ h)).2
    exact ⟨q, hq, by rw [hzc q (Ctx.above_mem hq), hqb]⟩
  · rw [weight, hcp]
    exact hc.congr hzc

/-- The outer child of the sibling is red: the rotation at the parent ends the loop. -/
theorem Short.rotate {col col' : ι → Color} {t s₁ s₂ : Shape ι} {d : Dir} {p w z : ι} {c : Ctx ι}
    (h : Short col t (⟨d, p, join d s₁ w s₂⟩ :: c)) (ht : IsBlack col t.root) (hw : col w = .black)
    (hz : s₂.root = some z) (hzr : col z = .red)
    (hn : (plug t (⟨d, p, join d s₁ w s₂⟩ :: c)).inorder.Nodup)
    (hcol : col' = paint (paint (paint col w (col p)) p .black) z .black) :
    RBTree col' (plug (join d (join d t p s₁) w s₂) c) := by
  obtain ⟨n, hb, hs, hpred, hc⟩ := h.focus ht
  obtain ⟨h1, h2⟩ := hs.of_join_black hw
  obtain ⟨a, b, rfl⟩ : ∃ a b, s₂ = .node a z b := by
    cases s₂ with
    | nil => cases hz
    | node a y b => cases hz; exact ⟨a, b, rfl⟩
  obtain ⟨ha, hb', -, -⟩ := Bal.of_join_red (d := .left) h2 hzr
  rw [nodup_plug] at hn
  simp only [Ctx.ids_cons, ((inorder_join_perm d s₁ w (.node a z b)).append_right _).nodup_iff,
    inorder_node, List.nodup_append, List.nodup_cons, List.mem_append, List.mem_cons, mem_join] at hn
  have hwp : w ≠ p := by grind
  have hwz : w ≠ z := by grind
  have hpz : p ≠ z := by grind
  have hc' : ∀ y, y ≠ w → y ≠ p → y ≠ z → col' y = col y := fun y h1 h2 h3 => by
    rw [hcol, paint_of_ne _ _ h3, paint_of_ne _ _ h2, paint_of_ne _ _ h1]
  have hcz : col' z = .black := by rw [hcol, paint_self]
  have hcp : col' p = .black := by rw [hcol, paint_of_ne _ _ hpz, paint_self]
  have hcw : col' w = col p := by
    rw [hcol, paint_of_ne _ _ hwz, paint_of_ne _ _ hwp, paint_self]
  have hzt : ∀ y ∈ t.inorder, col' y = col y := fun y hy => hc' y (by grind) (by grind) (by grind)
  have hz1 : ∀ y ∈ s₁.inorder, col' y = col y := fun y hy => hc' y (by grind) (by grind) (by grind)
  have hza : ∀ y ∈ a.inorder, col' y = col y := fun y hy => hc' y (by grind) (by grind) (by grind)
  have hzb : ∀ y ∈ b.inorder, col' y = col y := fun y hy => hc' y (by grind) (by grind) (by grind)
  have hzc : ∀ y ∈ Ctx.ids c, col' y = col y := fun y hy => hc' y (by grind) (by grind) (by grind)
  have hfoc : Bal col' (join d (join d t p s₁) w (.node a z b)) (n + 1 + weight col p) := by
    refine bal_join.mpr ⟨fun h => ⟨by rw [root_join, isBlack_some, hcp], isBlack_some.mpr hcz⟩,
      n + 1, by rw [weight, weight, hcw], ?_, ?_⟩
    · exact bal_join_black hcp (hb.congr hzt) (h1.congr hz1)
    · exact bal_join_black (d := .left) hcz (ha.congr hza) (hb'.congr hzb)
  refine rbTree_plug.mpr ⟨?_, _, hfoc, hc.congr hzc⟩
  rw [root_join, isBlack_some, hcw]
  rcases hp : col p with _ | _
  · exact Or.inr rfl
  · obtain ⟨q, hq, hqb⟩ := (hpred hp).2
    exact Or.inl ⟨q, hq, by rw [hzc q (Ctx.above_mem hq), hqb]⟩

omit [DecidableEq ι] in
theorem short_of_bal {col : ι → Color} {t : Shape ι} {c : Ctx ι} {n : Nat} (ht : Bal col t n)
    (hc : BalCtx col c (n + 1)) : Short col t c := by
  refine ⟨n, hc, ?_⟩
  cases t with
  | nil => exact Or.inl ⟨isBlack_none col, ht⟩
  | node l x r =>
      cases hx : col x with
      | black => exact Or.inl ⟨isBlack_some.mpr hx, ht⟩
      | red =>
          obtain ⟨hl, hr, -, -⟩ := Bal.of_join_red (d := .left) ht hx
          exact Or.inr ⟨l, x, r, rfl, hx, hl, hr⟩

omit [DecidableEq ι] in
/-- A red node with at most one child is replaced by the child. -/
theorem RBTree.splice_red {col : ι → Color} {d : Dir} {t : Shape ι} {x : ι} {c : Ctx ι}
    (h : RBTree col (plug (join d t x .nil) c)) (hx : col x = .red) : RBTree col (plug t c) := by
  obtain ⟨-, n, hb, hc⟩ := rbTree_plug.mp h
  obtain ⟨ht, -, hr, -⟩ := hb.of_join_red hx
  exact rbTree_plug.mpr ⟨Or.inr hr, n, ht, hc⟩

omit [DecidableEq ι] in
/-- A black node with at most one child leaves the child short. -/
theorem RBTree.splice_black {col : ι → Color} {d : Dir} {t : Shape ι} {x : ι} {c : Ctx ι}
    (h : RBTree col (plug (join d t x .nil) c)) (hx : col x = .black) :
    ∃ n, Bal col t n ∧ BalCtx col c (n + 1) := by
  obtain ⟨-, n, hb, hc⟩ := rbTree_plug.mp h
  obtain ⟨-, m, rfl, ht, -⟩ := bal_join.mp hb
  rw [weight_black hx] at hc
  exact ⟨m, ht, hc⟩

section Rename
variable {col col' : ι → Color} {cr c : Ctx ι} {d : Dir} {s : Shape ι} {x n : ι}

omit [DecidableEq ι] in
theorem BlackAbove.rename (h : BlackAbove col (cr ++ ⟨d, x, s⟩ :: c))
    (hcr : ∀ z ∈ Ctx.ids cr, col' z = col z) (hn : col' n = col x) :
    BlackAbove col' (cr ++ ⟨d, n, s⟩ :: c) := by
  obtain ⟨p, hp, hb⟩ := h
  cases cr with
  | nil =>
      cases hp
      exact ⟨n, rfl, hn.trans hb⟩
  | cons f cr =>
      cases hp
      exact ⟨f.id, rfl, (hcr _ (by simp)).trans hb⟩

omit [DecidableEq ι] in
/-- A node of the path is replaced by one of the same colour. -/
theorem BalCtx.rename {k : Nat} (h : BalCtx col (cr ++ ⟨d, x, s⟩ :: c) k)
    (hcr : ∀ z ∈ Ctx.ids cr, col' z = col z) (hs : ∀ z ∈ s.inorder, col' z = col z)
    (hc : ∀ z ∈ Ctx.ids c, col' z = col z) (hn : col' n = col x) :
    BalCtx col' (cr ++ ⟨d, n, s⟩ :: c) k := by
  induction cr generalizing k with
  | nil =>
      obtain ⟨h1, h2, h3⟩ := h
      refine ⟨h1.congr hs, fun hred => ?_, ?_⟩
      · obtain ⟨h4, p, h5, h6⟩ := h2 (hn ▸ hred)
        exact ⟨h4.congr fun z hz => hs z (root_mem hz), p, h5, by rw [hc p (Ctx.above_mem h5), h6]⟩
      · rw [weight, hn]
        exact h3.congr hc
  | cons f cr ih =>
      obtain ⟨h1, h2, h3⟩ := h
      have hf : col' f.id = col f.id := hcr _ (by simp)
      have hsib : ∀ z ∈ f.sib.inorder, col' z = col z := fun z hz => hcr z (by simp [hz])
      have hcr' : ∀ z ∈ Ctx.ids cr, col' z = col z := fun z hz => hcr z (by simp [hz])
      refine ⟨h1.congr hsib, fun hred => ?_, ?_⟩
      · obtain ⟨h4, h5⟩ := h2 (hf ▸ hred)
        exact ⟨h4.congr fun z hz => hsib z (root_mem hz), h5.rename hcr' hn⟩
      · rw [weight, hf]
        exact ih h3 hcr'

end Rename

end RedBlack
