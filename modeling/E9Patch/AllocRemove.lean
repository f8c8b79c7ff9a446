import E9Patch.AllocInsert

/-!
Removal. A node with at most one child is spliced out; one with two children gives its place, links and
colour to its successor, which is spliced out first. Either way the fields are fixed from the lowest
node whose subtree changed, and the loop of `rebalanceRemove` makes up for a black node that went.
-/

namespace E9Patch
open PtrTree PtrTree.Shape RedBlack Intervals

variable {τ ι : Type}

theorem rebalanceRemove_spec {t : Tree τ ι} {foc : Shape Nat} {c : Ctx Nat}
    (hv : Valid t (plug foc c)) (hs : Short t.heap.color foc c) :
    Balanced (t.rebalanceRemove c.above foc.root) (plug foc c).inorder ∧
      SameAllocs t (t.rebalanceRemove c.above foc.root) :=
  have hlt : c.length < t.heap.fresh + 2 := by
    have := length_ctx_le hv.toLinked
    omega
  removeLoop_spec hv hs hlt

theorem Heap.Ordered.sublist {h : Heap τ ι} {ids ids' : List Nat} (ho : h.Ordered ids')
    (hs : ids.Sublist ids') : h.Ordered ids :=
  ⟨⟨ho.1.1.sublist hs, fun a ha => ho.1.2 a (hs.subset ha)⟩, fun a ha => ho.2 a (hs.subset ha)⟩

theorem splice_sublist (d : Dir) (t : Shape Nat) (x : Nat) (c : Ctx Nat) :
    (plug t c).inorder.Sublist (plug (join d t x .nil) c).inorder := by
  rw [inorder_plug, inorder_plug]
  refine ((List.Sublist.refl _).append ?_).append (List.Sublist.refl _)
  cases d <;> simp [join]

/-- The heap after a node with at most one child is unlinked. -/
theorem splice_linked {t : Tree τ ι} {d : Dir} {ch : Shape Nat} {x : Nat} {c : Ctx Nat}
    (hl : Linked t (plug (join d ch x .nil) c)) :
    Linked (({ t with heap := t.heap.adopt ch.root c.above } : Tree τ ι).relink c.above x ch.root)
      (plug ch c) := by
  have hsub := splice_sublist d ch x c
  refine ⟨?_, ?_, hl.nodup.sublist hsub, ?_, ?_⟩
  · exact Tree.relink_root (s := join d ch x .nil) (t := { t with heap := _ }) hl.root
  · rw [Tree.relink_heap]
    exact Store.splice_holds hl.holds hl.nodup
  · rw [Tree.relink_heap]
    exact fun n hn => hl.fresh n (hsub.subset hn)
  · rw [Tree.relink_heap]
    exact (hl.ordered.sublist hsub).of_alloc rfl

theorem removeOuter_spec {t : Tree τ ι} {d : Dir} {ch : Shape Nat} {x : Nat} {c : Ctx Nat}
    (hv : Valid t (plug (join d ch x .nil) c))
    (hrb : RBTree t.heap.color (plug (join d ch x .nil) c)) :
    Balanced (t.removeOuter x ch.root) (plug ch c).inorder ∧
      SameAllocs t (t.removeOuter x ch.root) := by
  have hpar : t.heap.parent x = c.above :=
    (Store.holds_plug.mp hv.holds).1.parent_root (root_join _ _ _ _)
  have hl := splice_linked hv.toLinked
  obtain ⟨t₁, ht₁⟩ : ∃ t₁, t₁ = ({ t with heap := t.heap.adopt ch.root c.above } : Tree τ ι).relink
    c.above x ch.root := ⟨_, rfl⟩
  rw [← ht₁] at hl
  have hheap : t₁.heap = t.heap.withLinks t₁.heap.toStore := by
    rw [ht₁, Tree.relink_heap]
    rfl
  have hsame : ∀ z, Heap.SameAt t.heap t₁.heap z := fun z => by
    rw [hheap]
    exact Heap.withLinks_sameAt _ _ z
  obtain ⟨haug, haugc⟩ := Heap.aug_plug.mp hv.aug
  have hfix := fixUp_aug hl.holds hl.nodup hl.ordered
    ((Heap.aug_join.mp haug).2.1.congr fun z _ => hsame z)
    (fun f hf => (haugc.sibs f hf).congr fun z _ => hsame z) (length_ctx_le hl)
  obtain ⟨hf1, hf2, hf3, hf4⟩ := fixUp_frame t₁.heap t₁.heap.fresh c.above
  obtain ⟨t₂, ht₂⟩ : ∃ t₂ : Tree τ ι,
      t₂ = { t₁ with heap := t₁.heap.fixUp t₁.heap.fresh c.above } := ⟨_, rfl⟩
  have hv₂ : Valid t₂ (plug ch c) := by
    rw [ht₂]
    refine ⟨⟨hl.root, by rw [hf1]; exact hl.holds, hl.nodup, ?_, hl.ordered.of_alloc hf2⟩, hfix⟩
    simp only [hf4]
    exact hl.fresh
  have hcol : t₂.heap.color = t.heap.color := by
    rw [ht₂, hf3, hheap, Heap.withLinks_color]
  have hs₂ : SameAllocs t t₂ := by
    refine ⟨?_, ?_⟩
    · rw [ht₂, hf2, hheap, Heap.withLinks_alloc]
    · rw [ht₂, hf4, hheap, Heap.withLinks_fresh]
  have heq : t.removeOuter x ch.root =
      if t.heap.color x = .black then t₂.rebalanceRemove c.above ch.root else t₂ := by
    simp only [Tree.removeOuter, hpar, ← ht₁, ← ht₂]
  rw [heq]
  cases hx : t.heap.color x with
  | black =>
      obtain ⟨m, hb, hc⟩ := hrb.splice_black hx
      obtain ⟨h1, h2⟩ := rebalanceRemove_spec hv₂ (hcol ▸ short_of_bal hb hc)
      exact ⟨h1, hs₂.trans h2⟩
  | red => exact ⟨⟨_, hv₂, hcol ▸ hrb.splice_red hx, rfl⟩, hs₂⟩

/-- `leftmost` finds the first node of a subtree, which has no left child. -/
theorem leftmost_spec {h : Heap τ ι} {s : Shape Nat} {p : Option Nat} {fuel r : Nat}
    (hh : h.Holds p s) (hr : s.root = some r) (hf : s.size ≤ fuel + 1) :
    ∃ n ch cr, s = plug (node .nil n ch) cr ∧ Tree.leftmost h fuel r = n ∧ Ctx.before cr = [] := by
  induction s generalizing p fuel r with
  | nil => cases hr
  | node l x t ih _ =>
      cases hr
      obtain ⟨-, hl, -, hhl, -⟩ := hh
      cases l with
      | nil =>
          refine ⟨x, t, [], rfl, ?_, rfl⟩
          cases fuel with
          | zero => rfl
          | succ k => simp only [Tree.leftmost, hl, root_nil]
      | node l₁ y l₂ =>
          obtain ⟨fuel, rfl⟩ : ∃ k, fuel = k + 1 := ⟨fuel - 1, by simp at hf; omega⟩
          have hsz : (node l₁ y l₂).size ≤ fuel + 1 := by
            simp only [size_node] at hf ⊢
            omega
          obtain ⟨n, ch, cr, h1, h2, h3⟩ := ih hhl rfl hsz
          refine ⟨n, ch, cr ++ [⟨.left, x, t⟩], ?_, ?_, ?_⟩
          · rw [plug_append, ← h1]
            rfl
          · simp only [Tree.leftmost, hl, root_node]
            exact h2
          · rw [before_append, h3]
            rfl

theorem inorder_leftmost {n : Nat} {ch : Shape Nat} {cr : Ctx Nat} (hc : Ctx.before cr = []) :
    (plug (node .nil n ch) cr).inorder = n :: (plug ch cr).inorder := by
  rw [inorder_plug, inorder_plug, hc]
  simp

/-- The successor takes the links of the node that goes and its place in the path. -/
theorem substitute_linked {t : Tree τ ι} {l r : Shape Nat} {x n : Nat} {c : Ctx Nat} {h : Heap τ ι}
    (hl : Linked t (plug (node l x r) c)) (hn : n ∉ (plug (node l x r) c).inorder)
    (hord : t.heap.Ordered (plug (node l n r) c).inorder) (hf : n < t.heap.fresh)
    (hh : h.toStore = t.heap.toStore.substitute x n) (ha : h.alloc = t.heap.alloc)
    (hfr : h.fresh = t.heap.fresh) :
    Linked ⟨(t.relink c.above x (some n)).root, h⟩ (plug (node l n r) c) := by
  have hnd := hl.nodup
  rw [nodup_plug] at hnd
  simp only [mem_plug, inorder_node, List.mem_append, List.mem_cons, not_or] at hn
  simp only [inorder_node, List.nodup_append, List.nodup_cons, List.mem_append, List.mem_cons] at hnd
  have hroot : (t.relink c.above x (node l n r).root).root = (plug (node l n r) c).root :=
    Tree.relink_root hl.root
  refine ⟨hroot, ?_, ?_, ?_, hord.of_alloc ha⟩
  · simp only [hh]
    refine Store.substitute_holds hl.holds hl.nodup ?_
    simp only [mem_plug, inorder_node, List.mem_append, List.mem_cons, not_or]
    exact hn
  · rw [nodup_plug]
    simp only [inorder_node, List.nodup_append, List.nodup_cons, List.mem_append, List.mem_cons]
    grind
  · simp only [hfr]
    intro z hz
    have hold := hl.fresh z
    simp only [mem_plug, inorder_node, List.mem_append, List.mem_cons] at hz hold
    grind

/-- The steps of `removeInner` up to the fixing of the path: the successor `n` with child `ch` has
taken the place of `x`, and the fields of nodes off the path are as they were. -/
theorem removeInner_linked {t : Tree τ ι} {L ch : Shape Nat} {x n r : Nat} {cr c : Ctx Nat}
    (hv : Valid t (plug (node .nil n ch) (cr ++ ⟨.right, x, L⟩ :: c)))
    (hr : (plug (node .nil n ch) cr).root = some r) (hcr : Ctx.before cr = []) :
    ∃ t₂ : Tree τ ι, Linked t₂ (plug ch (cr ++ ⟨.right, n, L⟩ :: c)) ∧ SameAllocs t t₂ ∧
      t₂.heap.color = paint t.heap.color n (t.heap.color x) ∧
      (∀ z ∈ ch.inorder, Heap.SameAt t.heap t₂.heap z) ∧
      (∀ f ∈ cr ++ ⟨.right, n, L⟩ :: c, ∀ z ∈ f.sib.inorder, Heap.SameAt t.heap t₂.heap z) ∧
      t.removeInner x r =
        (let p := Ctx.above (cr ++ ⟨.right, n, L⟩ :: c)
         let t₃ : Tree τ ι := { t₂ with heap := t₂.heap.fixUp t₂.heap.fresh p }
         if t.heap.color n = .black then t₃.rebalanceRemove p ch.root else t₃) := by
  have hfocus : plug (node .nil n ch) (cr ++ ⟨.right, x, L⟩ :: c) =
      plug (node L x (plug (node .nil n ch) cr)) c := by rw [plug_append]; rfl
  -- where the successor is and what hangs below it
  have hleft : Tree.leftmost t.heap t.heap.fresh r = n := by
    have hh : t.heap.Holds (some x) (plug (node .nil n ch) cr) := by
      have := hv.holds
      rw [hfocus] at this
      exact (Store.holds_plug.mp this).1.2.2.2.2
    have hsz : (plug (node .nil n ch) cr).size ≤ t.heap.fresh + 1 := by
      have h1 := length_le_of_lt hv.nodup hv.fresh
      rw [hfocus, length_inorder, size_plug, size_node] at h1
      omega
    obtain ⟨n', ch', cr', h1, h2, h3⟩ := leftmost_spec hh hr hsz
    have h4 : (plug (node .nil n ch) cr).inorder = n :: (plug ch cr).inorder := inorder_leftmost hcr
    rw [h1, inorder_leftmost h3] at h4
    rw [h2]
    exact (List.cons.inj h4).1
  obtain ⟨⟨hpn, -, hchn, -⟩, -⟩ := Store.holds_plug.mp hv.holds
  -- unlinking it
  have hl₁ := splice_linked (d := .right) hv.toLinked
  obtain ⟨C, hC⟩ : ∃ C, C = cr ++ ⟨.right, x, L⟩ :: c := ⟨_, rfl⟩
  rw [← hC] at hl₁ hpn hv
  obtain ⟨t₁, ht₁⟩ : ∃ t₁ : Tree τ ι, t₁ = (({ t with heap := t.heap.adopt ch.root C.above } :
    Tree τ ι).relink C.above n ch.root).fix C.above := ⟨_, rfl⟩
  have hl₁ : Linked t₁ (plug (node L x (plug ch cr)) c) := by
    have hfoc : plug ch C = plug (node L x (plug ch cr)) c := by rw [hC, plug_append]; rfl
    rw [ht₁, ← hfoc]
    exact fix_linked hl₁ _
  have hnd : n ∉ (plug (node L x (plug ch cr)) c).inorder := by
    have h1 := hv.nodup
    rw [hC, hfocus, inorder_plug, inorder_node, inorder_leftmost hcr] at h1
    rw [inorder_plug, inorder_node]
    simp only [List.nodup_append, List.nodup_cons, List.mem_append, List.mem_cons] at h1 ⊢
    grind
  have hnx : n ≠ x := fun e => hnd (mem_plug.mpr (Or.inl (by simp [e])))
  have hst₁ : t₁.heap.toStore = (t.heap.toStore.adopt ch.root C.above).hang C.above n ch.root := by
    simp only [ht₁, Tree.fix, Heap.fix_toStore, Tree.relink_heap]
    rfl
  have hpar₁ : t₁.heap.parent n = C.above := by
    rw [hst₁, Store.hang_parent, Store.adopt_parent, hpn, ite_self]
  have hsame₁ : SameAllocs t t₁ := by
    constructor <;> simp only [ht₁, Tree.fix, Heap.fix_alloc, Heap.fix_fresh, Tree.relink_heap] <;> rfl
  have hcol₁ : t₁.heap.color = t.heap.color := by
    simp only [ht₁, Tree.fix, Heap.fix_color, Tree.relink_heap]
    rfl
  have hat₁ : ∀ z, C.above ≠ some z → Heap.SameAt t.heap t₁.heap z := fun z hz => by
    simp only [ht₁, Tree.fix, Tree.relink_heap]
    exact (Heap.withLinks_sameAt _ _ z).trans (Heap.fix_sameAt _ hz)
  -- the successor in the place of `x`
  obtain ⟨h₂, hh₂⟩ : ∃ h₂ : Heap τ ι, h₂ =
      (let h := t₁.heap.setParent n (t₁.heap.parent x)
       let h := h.setChild .left n (h.child .left x)
       let h := h.setChild .right n (h.child .right x)
       h.setColor n (h.color x)) := ⟨_, rfl⟩
  have hp₂ : h₂.parent x = c.above := by
    have h1 : t₁.heap.parent x = c.above := (Store.holds_plug.mp hl₁.holds).1.1
    simp only [hh₂, Heap.setColor, Heap.setChild, Heap.setParent, Store.setChild_parent,
      Store.setParent_parent, if_neg (Ne.symm hnx), h1]
  obtain ⟨t₂, ht₂⟩ : ∃ t₂ : Tree τ ι, t₂ =
      (({ t₁ with heap := h₂ } : Tree τ ι).relink c.above x (some n)).fix c.above := ⟨_, rfl⟩
  obtain ⟨h₃, hh₃⟩ : ∃ h₃ : Heap τ ι, h₃ =
      (let h := t₂.heap.adopt (t₂.heap.child .left x) (some n)
       h.adopt (h.child .right x) (some n)) := ⟨_, rfl⟩
  have hst₂ : t₂.heap.toStore = h₂.toStore.hang c.above x (some n) := by
    simp only [ht₂, Tree.fix, Heap.fix_toStore, Tree.relink_heap]
    rfl
  have hst₃ : h₃.toStore = t₁.heap.toStore.substitute x n := by
    have h1 : h₃.toStore = (t₂.heap.toStore.adopt (t₂.heap.child .left x) (some n)).adopt
        ((t₂.heap.toStore.adopt (t₂.heap.child .left x) (some n)).child .right x) (some n) := by
      rw [hh₃]
      rfl
    rw [h1, hst₂, ← hp₂, hh₂]
    rfl
  have hroot₂ : t₂.root = (t₁.relink c.above x (some n)).root := by
    rw [ht₂]
    cases c.above <;> rfl
  have ha₃ : h₃.alloc = t₁.heap.alloc := by
    simp only [hh₃, Heap.adopt, ht₂, Tree.fix, Heap.fix_alloc, Tree.relink_heap, hh₂]
    rfl
  have hf₃ : h₃.fresh = t₁.heap.fresh := by
    simp only [hh₃, Heap.adopt, ht₂, Tree.fix, Heap.fix_fresh, Tree.relink_heap, hh₂]
    rfl
  have hcol₃ : h₃.color = paint t.heap.color n (t.heap.color x) := by
    simp only [hh₃, Heap.adopt, ht₂, Tree.fix, Heap.fix_color, Tree.relink_heap, hh₂, ← hcol₁]
    rfl
  have hat₃ : ∀ z, C.above ≠ some z → c.above ≠ some z → Heap.SameAt t.heap h₃ z := fun z h1 h2 => by
    have hat₂ : Heap.SameAt t₁.heap h₂ z := by
      rw [hh₂]
      exact ⟨rfl, rfl, rfl, rfl⟩
    have h3 : Heap.SameAt t₁.heap t₂.heap z := by
      simp only [ht₂, Tree.fix, Tree.relink_heap]
      exact hat₂.trans ((Heap.withLinks_sameAt _ _ z).trans (Heap.fix_sameAt _ h2))
    rw [hh₃]
    exact ((hat₁ z h1).trans h3).trans ⟨rfl, rfl, rfl, rfl⟩
  have hord : t₁.heap.Ordered (plug (node L n (plug ch cr)) c).inorder := by
    have h1 := hv.ordered.of_alloc hsame₁.alloc
    rw [hC, hfocus, inorder_plug, inorder_node, inorder_leftmost hcr] at h1
    refine h1.sublist ?_
    rw [inorder_plug, inorder_node]
    simp
  have hlt : n < t₁.heap.fresh := by
    rw [hsame₁.fresh]
    exact hv.fresh n (mem_plug.mpr (Or.inl (by simp)))
  have hfoc' : plug ch (cr ++ ⟨.right, n, L⟩ :: c) = plug (node L n (plug ch cr)) c := by
    rw [plug_append]; rfl
  have hl₃ := substitute_linked hl₁ hnd hord hlt hst₃ ha₃ hf₃
  -- what is off the path
  have hndC := (nodup_focus hv.nodup).2.1
  have hdis := (nodup_focus hv.nodup).2.2
  have habove : ∀ q, C.above = some q → ∃ g ∈ C, g.id = q := by
    intro q hq
    cases hCc : C with
    | nil => rw [hCc] at hq; cases hq
    | cons g C' =>
        rw [hCc] at hq
        cases hq
        exact ⟨g, by simp, rfl⟩
  have habove' : ∀ q, c.above = some q → ∃ g ∈ C, g.id = q := by
    intro q hq
    cases hcc : c with
    | nil => rw [hcc] at hq; cases hq
    | cons g C' =>
        rw [hcc] at hq
        cases hq
        exact ⟨g, by simp [hC, hcc], rfl⟩
  refine ⟨⟨t₂.root, h₃⟩, ?_, ?_, hcol₃, ?_, ?_, ?_⟩
  · rw [hfoc', hroot₂]
    exact hl₃
  · exact hsame₁.trans ⟨ha₃, hf₃⟩
  · intro z hz
    have hzC : ∀ g ∈ C, g.id ≠ z := fun g hg e => hdis z (by simp [hz]) (e ▸ id_mem_ids hg)
    refine hat₃ z (fun e => ?_) (fun e => ?_)
    · obtain ⟨g, hg, he⟩ := habove z e
      exact hzC g hg he
    · obtain ⟨g, hg, he⟩ := habove' z e
      exact hzC g hg he
  · intro f hf z hz
    obtain ⟨f', hf', hz'⟩ : ∃ f' ∈ C, z ∈ f'.sib.inorder := by
      rcases List.mem_append.mp hf with hf | hf
      · exact ⟨f, by simp [hC, hf], hz⟩
      · rcases List.mem_cons.mp hf with rfl | hf
        · exact ⟨⟨.right, x, L⟩, by simp [hC], hz⟩
        · exact ⟨f, by simp [hC, hf], hz⟩
    refine hat₃ z (fun e => ?_) (fun e => ?_)
    · obtain ⟨g, hg, he⟩ := habove z e
      exact sib_ne_id hndC hf' hg hz' he
    · obtain ⟨g, hg, he⟩ := habove' z e
      exact sib_ne_id hndC hf' hg hz' he
  · have hparent : (if C.above = some x then some n else C.above) =
        Ctx.above (cr ++ ⟨.right, n, L⟩ :: c) := by
      rw [hC]
      cases cr with
      | nil => exact if_pos rfl
      | cons g cr =>
          refine if_neg fun e => ?_
          have h1 := hndC
          rw [hC, ids_append] at h1
          have h2 : g.id = x := Option.some.inj e
          simp [h2] at h1
    simp only [Tree.removeInner, hleft, hchn, hpn, ← ht₁, hpar₁, hparent, ← hh₂, hp₂, ← ht₂, ← hh₃]

theorem removeInner_spec {t : Tree τ ι} {L R : Shape Nat} {x r : Nat} {c : Ctx Nat}
    (hv : Valid t (plug (node L x R) c)) (hrb : RBTree t.heap.color (plug (node L x R) c))
    (hr : R.root = some r) :
    Balanced (t.removeInner x r) (Ctx.before c ++ (L.inorder ++ R.inorder) ++ Ctx.after c) ∧
      SameAllocs t (t.removeInner x r) := by
  obtain ⟨n, ch, cr, rfl, -, hcr⟩ : ∃ n ch cr, R = plug (node .nil n ch) cr ∧
      Tree.leftmost t.heap R.size r = n ∧ Ctx.before cr = [] :=
    leftmost_spec (Store.holds_plug.mp hv.holds).1.2.2.2.2 hr (by omega)
  have hfocus : plug (node .nil n ch) (cr ++ ⟨.right, x, L⟩ :: c) =
      plug (node L x (plug (node .nil n ch) cr)) c := by rw [plug_append]; rfl
  have hids : (plug ch (cr ++ ⟨.right, n, L⟩ :: c)).inorder =
      Ctx.before c ++ (L.inorder ++ (plug (node .nil n ch) cr).inorder) ++ Ctx.after c := by
    rw [plug_append, plug_cons, join, inorder_plug, inorder_node, inorder_leftmost hcr]
  rw [← hfocus] at hv hrb
  obtain ⟨t₂, hl₂, hs₂, hcol₂, hch₂, hsib₂, heq⟩ := removeInner_linked hv hr hcr
  obtain ⟨haug, haugc⟩ := Heap.aug_plug.mp hv.aug
  have hsibs : t₂.heap.AugSibs (cr ++ ⟨.right, n, L⟩ :: c) := by
    intro f hf
    refine Heap.Aug.congr ?_ (hsib₂ f hf)
    rcases List.mem_append.mp hf with hf | hf
    · exact haugc.sibs f (by simp [hf])
    · rcases List.mem_cons.mp hf with rfl | hf
      · exact haugc.sibs ⟨.right, x, L⟩ (by simp)
      · exact haugc.sibs f (by simp [hf])
  have hfix := fixUp_aug hl₂.holds hl₂.nodup hl₂.ordered (haug.2.2.congr hch₂) hsibs
    (length_ctx_le hl₂)
  obtain ⟨hf1, hf2, hf3, hf4⟩ := fixUp_frame t₂.heap t₂.heap.fresh
    (Ctx.above (cr ++ ⟨.right, n, L⟩ :: c))
  obtain ⟨t₃, ht₃⟩ : ∃ t₃ : Tree τ ι, t₃ = { t₂ with
      heap := t₂.heap.fixUp t₂.heap.fresh (Ctx.above (cr ++ ⟨.right, n, L⟩ :: c)) } := ⟨_, rfl⟩
  have hv₃ : Valid t₃ (plug ch (cr ++ ⟨.right, n, L⟩ :: c)) := by
    rw [ht₃]
    refine ⟨⟨hl₂.root, by rw [hf1]; exact hl₂.holds, hl₂.nodup, ?_, hl₂.ordered.of_alloc hf2⟩, hfix⟩
    simp only [hf4]
    exact hl₂.fresh
  have hs₃ : SameAllocs t t₃ := hs₂.trans (by rw [ht₃]; exact ⟨hf2, hf4⟩)
  have hcol₃ : t₃.heap.color = paint t.heap.color n (t.heap.color x) := by rw [ht₃, hf3, hcol₂]
  simp only [← ht₃] at heq
  -- off the path no colour changes, and `n` has the colour of `x`
  obtain ⟨hndt, -, hdis⟩ := nodup_focus hv.nodup
  have hold : ∀ z, z ≠ n → t₃.heap.color z = t.heap.color z := fun z hz => by
    rw [hcol₃, paint_of_ne _ _ hz]
  have hn₃ : t₃.heap.color n = t.heap.color x := by rw [hcol₃, paint_self]
  have hnC : ∀ z ∈ Ctx.ids (cr ++ ⟨.right, x, L⟩ :: c), z ≠ n := fun z hz e =>
    hdis n (by simp) (e ▸ hz)
  simp only [ids_append, Ctx.ids_cons, List.mem_append, List.mem_cons] at hnC
  have hcht : ∀ z ∈ ch.inorder, t₃.heap.color z = t.heap.color z := fun z hz =>
    hold z (fun e => by simp [e ▸ hz] at hndt)
  have hrename : ∀ k, BalCtx t.heap.color (cr ++ ⟨.right, x, L⟩ :: c) k →
      BalCtx t₃.heap.color (cr ++ ⟨.right, n, L⟩ :: c) k := fun k hc =>
    hc.rename (fun z hz => hold z (hnC z (by simp [hz]))) (fun z hz => hold z (hnC z (by simp [hz])))
      (fun z hz => hold z (hnC z (by simp [hz]))) hn₃
  rw [heq, ← hids]
  cases hx : t.heap.color n with
  | black =>
      obtain ⟨m, hb, hc⟩ := RBTree.splice_black (d := .right) hrb hx
      obtain ⟨h1, h2⟩ := rebalanceRemove_spec hv₃ (short_of_bal (hb.congr hcht) (hrename _ hc))
      exact ⟨h1, hs₃.trans h2⟩
  | red =>
      obtain ⟨hab, m, hb, hc⟩ := rbTree_plug.mp (RBTree.splice_red (d := .right) hrb hx)
      refine ⟨⟨_, hv₃, rbTree_plug.mpr ⟨?_, m, hb.congr hcht, hrename _ hc⟩, rfl⟩, hs₃⟩
      rcases hab with hab | hab
      · exact Or.inl (hab.rename (fun z hz => hold z (hnC z (by simp [hz]))) hn₃)
      · exact Or.inr (hab.congr fun z hz => hcht z (root_mem hz))

/-- **Removal.** The node is gone, the rest keeps its order and the tree is balanced again. -/
theorem remove_spec {t : Tree τ ι} {l r : Shape Nat} {x : Nat} {c : Ctx Nat}
    (hv : Valid t (plug (node l x r) c)) (hrb : RBTree t.heap.color (plug (node l x r) c)) :
    Balanced (t.remove x) (Ctx.before c ++ (l.inorder ++ r.inorder) ++ Ctx.after c) ∧
      SameAllocs t (t.remove x) := by
  obtain ⟨-, hlx, hrx, -⟩ := (Store.holds_plug.mp hv.holds).1
  cases l with
  | nil =>
      have heq : t.remove x = t.removeOuter x r.root := by simp only [Tree.remove, hlx, hrx, root_nil]
      rw [heq]
      have hv' : Valid t (plug (join .right r x .nil) c) := hv
      have := removeOuter_spec hv' hrb
      simpa [inorder_plug] using this
  | node l₁ y l₂ =>
      cases r with
      | nil =>
          have heq : t.remove x = t.removeOuter x (node l₁ y l₂).root := by
            simp only [Tree.remove, hlx, hrx, root_nil, root_node]
          rw [heq]
          have hv' : Valid t (plug (join .left (node l₁ y l₂) x .nil) c) := hv
          have := removeOuter_spec hv' hrb
          simpa [inorder_plug] using this
      | node r₁ z r₂ =>
          have heq : t.remove x = t.removeInner x z := by
            simp only [Tree.remove, hlx, hrx, root_node]
          rw [heq]
          exact removeInner_spec hv hrb rfl

end E9Patch
