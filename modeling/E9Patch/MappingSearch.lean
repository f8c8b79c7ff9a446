import Mathlib.Data.List.Induction
import E9Patch.MappingTree

/-!
Lookups in the radix tree of page grouping, after any run of insertions and removals. The key of an inner node
sums up the leaves below it: it may be too small, as removal leaves it where two children or more remain, and
then nothing is pruned that a search could find.
-/

namespace E9Patch
open Fallible

variable {w : Nat} {α : Type}

/-! ### Keys as sets of bits -/

/-- Every bit of a key is one of the other. -/
def SubKey (a b : BitVec w) : Prop := a &&& b = a

theorem SubKey.refl (a : BitVec w) : SubKey a a := BitVec.and_self

theorem SubKey.trans {a b c : BitVec w} (hab : SubKey a b) (hbc : SubKey b c) : SubKey a c := by
  unfold SubKey at *
  calc a &&& c = (a &&& b) &&& c := by rw [hab]
    _ = a &&& (b &&& c) := BitVec.and_assoc _ _ _
    _ = a := by rw [hbc, hab]

theorem SubKey.and_left (a b : BitVec w) : SubKey (a &&& b) a := by
  unfold SubKey
  rw [BitVec.and_comm, ← BitVec.and_assoc, BitVec.and_self]

theorem SubKey.and_right (a b : BitVec w) : SubKey (a &&& b) b := by
  unfold SubKey
  rw [BitVec.and_assoc, BitVec.and_self]

/-- What is disjoint from a key is disjoint from its subsets. -/
theorem SubKey.disjoint {a b key : BitVec w} (h : SubKey a b) (hb : b &&& key = 0) : key &&& a = 0 := by
  calc key &&& a = key &&& (a &&& b) := by rw [h]
    _ = a &&& (b &&& key) := by rw [BitVec.and_comm, BitVec.and_assoc]
    _ = 0 := by
        rw [hb]
        exact BitVec.and_zero

namespace Node

/-! ### Summaries -/

/-- The key of every inner node is a subset of the keys of the leaves below it. -/
def Summarised : Node w α → Prop
  | .null => True
  | .leaf _ _ => True
  | .inner key _ child => ∀ i, (child i).Summarised ∧ ∀ k ∈ (child i).keys, SubKey key k

/-- A leaf sums itself up. -/
theorem Summarised.subKey {node : Node w α} (h : node.Summarised) {k : BitVec w} (hk : k ∈ node.keys) :
    SubKey node.key k := by
  cases node with
  | null => cases hk
  | leaf key mappings =>
      rw [List.mem_singleton.mp hk]
      exact SubKey.refl key
  | inner key shift child =>
      obtain ⟨i, hi⟩ := mem_keys_inner.mp hk
      exact (h i).2 k hi

theorem isNull_of_mem_keys {node : Node w α} {k : BitVec w} (h : k ∈ node.keys) : node.isNull = false := by
  cases node with
  | null => cases h
  | _ => rfl

/-- The loop of `fix` only takes bits away, and leaves no bit that a child lacks. -/
theorem fixLoop_subKey (child : Fin BRANCH_MAX → Node w α) (is : List (Fin BRANCH_MAX)) (key : BitVec w) :
    let key' := is.foldl (fun key i => if (child i).isNull then key else key &&& (child i).key) key
    SubKey key' key ∧ ∀ i ∈ is, (child i).isNull = false → SubKey key' (child i).key := by
  induction is generalizing key with
  | nil => exact ⟨SubKey.refl key, fun i hi => nomatch hi⟩
  | cons j is ih =>
      rw [List.foldl_cons]
      cases hj : (child j).isNull with
      | true =>
          rw [if_pos rfl]
          obtain ⟨hkey, his⟩ := ih key
          refine ⟨hkey, fun i hi hnull => ?_⟩
          rcases List.mem_cons.mp hi with rfl | hi
          · rw [hj] at hnull
            cases hnull
          · exact his i hi hnull
      | false =>
          rw [if_neg Bool.false_ne_true]
          obtain ⟨hkey, his⟩ := ih (key &&& (child j).key)
          refine ⟨hkey.trans (SubKey.and_left _ _), fun i hi hnull => ?_⟩
          rcases List.mem_cons.mp hi with rfl | hi
          · exact hkey.trans (SubKey.and_right _ _)
          · exact his i hi hnull

theorem fix_summarised {child : Fin BRANCH_MAX → Node w α} (h : ∀ i, (child i).Summarised) (shift : Nat) :
    (fix shift child).Summarised := by
  intro i
  refine ⟨h i, fun k hk => ?_⟩
  have hchild := (fixLoop_subKey child (List.finRange BRANCH_MAX) (BitVec.allOnes w)).2 i (List.mem_finRange i)
    (isNull_of_mem_keys hk)
  exact hchild.trans ((h i).subKey hk)

theorem forall_setChild {P : Node w α → Prop} {child : Fin BRANCH_MAX → Node w α} {idx : Fin BRANCH_MAX}
    {node : Node w α} (hnode : P node) (h : ∀ i, P (child i)) (i : Fin BRANCH_MAX) :
    P (Node.setChild child idx node i) := by
  by_cases hi : i = idx
  · rw [hi, setChild_same]
    exact hnode
  · rw [setChild_other hi]
    exact h i

theorem insert_summarised {node : Node w α} (h : node.Summarised) (key : BitVec w) (mapping : List α) :
    (node.insert key mapping).Summarised := by
  induction node with
  | null => exact trivial
  | leaf k mappings =>
      rw [insert]
      by_cases hdiff : k ^^^ key = 0
      · rw [if_pos hdiff]
        exact trivial
      · rw [if_neg hdiff]
        have hnull : ∀ _ : Fin BRANCH_MAX, (.null : Node w α).Summarised := fun _ => trivial
        have hleaf : ∀ {k : BitVec w} {ms : List (List α)}, (Node.leaf k ms).Summarised := trivial
        exact fix_summarised (forall_setChild hleaf (forall_setChild hleaf hnull)) _
  | inner k shift child ih =>
      rw [insert]
      exact fix_summarised (forall_setChild (ih _ (h _).1) fun i => (h i).1) shift

/-- A node that stays as it is keeps the key it had for more leaves. -/
theorem remove_summarised {node : Node w α} (h : node.Summarised) (hrouted : node.Routed) (key : BitVec w) :
    (node.remove key).Summarised := by
  induction node with
  | null => exact trivial
  | leaf k mappings =>
      rw [remove]
      split_ifs <;> exact trivial
  | inner k shift child ih =>
      have hc := ih (index shift key) (h _).1 (hrouted _).1
      have hkeys := (remove_spec (hrouted (index shift key)).1 key).2.1
      rw [remove]
      generalize (child (index shift key)).remove key = c at hc hkeys
      have hchild := @forall_setChild _ _ _ child (index shift key) c hc fun i => (h i).1
      by_cases hnull : c.isNull = true
      · rw [if_neg (not_not.mpr hnull)]
        show (collapse k shift (Node.setChild child (index shift key) c)).Summarised
        unfold collapse
        rcases occupied (Node.setChild child (index shift key) c) with _ | ⟨i, _ | ⟨j, rest⟩⟩
        · exact trivial
        · exact hchild i
        · intro i
          refine ⟨hchild i, ?_⟩
          by_cases hi : i = index shift key
          · rw [hi, setChild_same, hkeys]
            exact fun k' hk' => (h _).2 k' (List.mem_of_mem_filter hk')
          · rw [setChild_other hi]
            exact (h i).2
      · rw [if_pos hnull]
        exact fix_summarised hchild shift

/-! ### Searches -/

/-- A leaf is found by its key. -/
theorem find_iff {node : Node w α} (h : node.Routed) {key : BitVec w} :
    (∃ path, node.find key = some path) ↔ key ∈ node.keys := by
  induction node with
  | null =>
      constructor
      · rintro ⟨path, hpath⟩
        cases hpath
      · intro hk
        cases hk
  | leaf k mappings =>
      rw [find, keys, List.mem_singleton]
      by_cases hk : k = key
      · rw [if_pos hk]
        exact ⟨fun _ => hk.symm, fun _ => ⟨[], rfl⟩⟩
      · rw [if_neg hk]
        refine ⟨?_, fun heq => absurd heq.symm hk⟩
        rintro ⟨path, hpath⟩
        cases hpath
  | inner k shift child ih =>
      have hchild := ih (index shift key) (h _).1
      rw [find, mem_keys_inner]
      constructor
      · rintro ⟨path, hpath⟩
        obtain ⟨path', hpath', -⟩ := Option.map_eq_some_iff.mp hpath
        exact ⟨_, hchild.mp ⟨path', hpath'⟩⟩
      · rintro ⟨i, hi⟩
        have hindex : index shift key = i := (h i).2 key hi
        obtain ⟨path, hpath⟩ := hchild.mpr (hindex ▸ hi)
        exact ⟨index shift key :: path, by rw [hpath]; rfl⟩

/-- No leaf that a search for a complement could find is pruned. -/
theorem findAnyComplement_iff {node : Node w α} (h : node.Summarised) {key : BitVec w} :
    (∃ path, node.findAnyComplement key = some path) ↔ ∃ k ∈ node.keys, k &&& key = 0 := by
  constructor
  · rintro ⟨path, hpath⟩
    induction node generalizing path with
    | null => cases hpath
    | leaf k mappings =>
        rw [findAnyComplement] at hpath
        split_ifs at hpath with hzero
        exact ⟨k, List.mem_singleton_self k, hzero⟩
    | inner k shift child ih =>
        rw [findAnyComplement] at hpath
        obtain ⟨i, -, hi⟩ := List.exists_of_findSome?_eq_some hpath
        split_ifs at hi
        obtain ⟨path', hpath', -⟩ := Option.map_eq_some_iff.mp hi
        obtain ⟨k', hk', hzero⟩ := ih i (h i).1 path' hpath'
        exact ⟨k', mem_keys_inner.mpr ⟨i, hk'⟩, hzero⟩
  · rintro ⟨k, hk, hzero⟩
    induction node with
    | null => cases hk
    | leaf k' mappings =>
        rw [List.mem_singleton.mp hk] at hzero
        exact ⟨[], by rw [findAnyComplement, if_pos hzero]⟩
    | inner k' shift child ih =>
        obtain ⟨i, hi⟩ := mem_keys_inner.mp hk
        obtain ⟨path, hpath⟩ := ih i (h i).1 hi
        -- the key of the child is a subset of the leaf's, so that the child is searched
        have hsearched : key &&& (child i).key = 0 := ((h i).1.subKey hi).disjoint hzero
        rw [← Option.isSome_iff_exists, findAnyComplement, List.findSome?_isSome_iff]
        refine ⟨i, List.mem_finRange i, ?_⟩
        rw [isNull_of_mem_keys hi, if_neg Bool.false_ne_true, if_neg (not_not.mpr hsearched), hpath]
        rfl

/-! ### Merging -/

theorem keys_setMappings (node : Node w α) (path : List (Fin BRANCH_MAX)) (mappings : List (List α)) :
    (node.setMappings path mappings).keys = node.keys := by
  induction node generalizing path with
  | null => rfl
  | leaf key ms => cases path <;> rfl
  | inner key shift child ih =>
      cases path with
      | nil => rfl
      | cons i path =>
          refine List.flatMap_congr fun j _ => ?_
          by_cases hj : j = i
          · rw [hj, setChild_same, ih]
          · rw [setChild_other hj]

theorem setMappings_summarised {node : Node w α} (h : node.Summarised) (path : List (Fin BRANCH_MAX))
    (mappings : List (List α)) : (node.setMappings path mappings).Summarised := by
  induction node generalizing path with
  | null => exact trivial
  | leaf key ms => cases path <;> exact trivial
  | inner key shift child ih =>
      cases path with
      | nil => exact h
      | cons i path =>
          refine forall_setChild (P := fun node => node.Summarised ∧ ∀ k ∈ node.keys, SubKey key k) ⟨?_, ?_⟩ h
          · exact ih i (h i).1 path
          · rw [keys_setMappings]
            exact (h i).2

/-- The tree that the mappings are merged into is one that nothing is missed in. -/
theorem merge_summarised {tree tree' : Node w α} (hrouted : tree.Routed) (hsum : tree.Summarised) {key : BitVec w}
    {mapping : α} (h : tree.merge key mapping = .ok tree') : tree'.Summarised := by
  unfold merge at h
  cases hfind : tree.find key with
  | some path =>
      rw [hfind] at h
      obtain ⟨leaf, -, hleaf⟩ := bind_ok.mp h
      cases hleaf
      exact setMappings_summarised hsum path _
  | none =>
      rw [hfind] at h
      dsimp only at h
      cases hcmp : tree.findAnyComplement key with
      | none =>
          rw [hcmp] at h
          cases h
          exact insert_summarised hsum key [mapping]
      | some path =>
          rw [hcmp] at h
          obtain ⟨leaf, hleaf, h⟩ := bind_ok.mp h
          obtain ⟨mappingCmp, -, h⟩ := bind_ok.mp h
          obtain ⟨k, mappings, hat, -⟩ := findAnyComplement_spec hcmp
          obtain ⟨-, L, R, -, -, hnew⟩ := setMappings_spec hrouted hat
          have hset := setMappings_summarised hsum path leaf.2.tail
          cases h
          refine insert_summarised ?_ _ _
          split_ifs
          · exact remove_summarised hset (hnew leaf.2.tail).1 leaf.1
          · exact hset

end Node

/-! ### Runs -/

/-- An operation on the tree. -/
inductive RadixOp (w : Nat) (α : Type) where
  | insert (key : BitVec w) (mapping : List α)
  | remove (key : BitVec w)

namespace Node

def apply (tree : Node w α) : RadixOp w α → Node w α
  | .insert key mapping => tree.insert key mapping
  | .remove key => tree.remove key

/-- The tree after a run of operations, from the empty one. -/
def run (ops : List (RadixOp w α)) : Node w α := ops.foldl apply .null

/-- The key was inserted, and has not been removed since. -/
def Inserted (ops : List (RadixOp w α)) (key : BitVec w) : Prop :=
  ∃ before mapping after, ops = before ++ .insert key mapping :: after ∧ .remove key ∉ after

theorem inserted_concat {ops : List (RadixOp w α)} {op : RadixOp w α} {key : BitVec w} :
    Inserted (ops ++ [op]) key ↔ (∃ mapping, op = .insert key mapping) ∨ Inserted ops key ∧ op ≠ .remove key := by
  constructor
  · rintro ⟨before, mapping, after, hops, hafter⟩
    rcases List.eq_nil_or_concat after with rfl | ⟨after', last, rfl⟩
    · exact Or.inl ⟨mapping, (List.append_inj' hops rfl).2 |> List.singleton_inj.mp⟩
    · rw [List.concat_eq_append, ← List.cons_append, ← List.append_assoc] at hops
      obtain ⟨hbefore, hlast⟩ := List.append_inj' hops rfl
      rw [List.singleton_inj.mp hlast]
      rw [List.concat_eq_append, List.mem_append, List.mem_singleton, not_or] at hafter
      exact Or.inr ⟨⟨before, mapping, after', hbefore, hafter.1⟩, fun heq => hafter.2 heq.symm⟩
  · rintro (⟨mapping, rfl⟩ | ⟨⟨before, mapping, after, rfl, hafter⟩, hop⟩)
    · exact ⟨ops, mapping, [], rfl, List.not_mem_nil⟩
    · refine ⟨before, mapping, after ++ [op], by simp, fun hmem => ?_⟩
      rcases List.mem_append.mp hmem with hmem | hmem
      · exact hafter hmem
      · exact hop (List.mem_singleton.mp hmem).symm

/-- What every operation keeps, and what it makes of the keys. -/
theorem apply_spec {tree : Node w α} (hrouted : tree.Routed) (hsum : tree.Summarised) (op : RadixOp w α) :
    (tree.apply op).Routed ∧ (tree.apply op).Summarised ∧
      ∀ key, key ∈ (tree.apply op).keys ↔
        (∃ mapping, op = .insert key mapping) ∨ key ∈ tree.keys ∧ op ≠ .remove key := by
  cases op with
  | insert k mapping =>
      refine ⟨(insert_spec hrouted k mapping).1, insert_summarised hsum k mapping, fun key => mem_keys_insert.trans ?_⟩
      simp [eq_comm]
  | remove k =>
      obtain ⟨hr, hkeys, -⟩ := remove_spec hrouted k
      refine ⟨hr, remove_summarised hsum hrouted k, fun key => ?_⟩
      show key ∈ (tree.remove k).keys ↔ _
      rw [hkeys, List.mem_filter, decide_eq_true_eq, or_iff_right fun ⟨_, h⟩ => nomatch h]
      refine and_congr_right fun _ => not_congr ⟨fun heq => by rw [heq], fun heq => ?_⟩
      injection heq with heq
      exact heq.symm

theorem run_spec (ops : List (RadixOp w α)) :
    (run ops).Routed ∧ (run ops).Summarised ∧ ∀ key, key ∈ (run ops).keys ↔ Inserted ops key := by
  induction ops using List.reverseRecOn with
  | nil =>
      refine ⟨trivial, trivial, fun key => ⟨fun hk => (nomatch hk), ?_⟩⟩
      rintro ⟨before, mapping, after, hops, -⟩
      simp at hops
  | append_singleton ops op ih =>
      obtain ⟨hrouted, hsum, hkeys⟩ := ih
      obtain ⟨hrouted', hsum', hkeys'⟩ := apply_spec hrouted hsum op
      have hrun : run (ops ++ [op]) = (run ops).apply op := by
        unfold run
        rw [List.foldl_append]
        rfl
      rw [hrun]
      refine ⟨hrouted', hsum', fun key => ?_⟩
      rw [hkeys', hkeys, inserted_concat]

/-- **Lookups are exact.** After any run of insertions and removals a key is found if and only if it is in the
tree, the key of an inner node is a subset of all keys below it, and a complement is found if there is one. -/
theorem radixRun_exact (ops : List (RadixOp w α)) :
    (∀ key, (∃ path, (run ops).find key = some path) ↔ Inserted ops key) ∧
    (∀ key path, (run ops).find key = some path → ∃ mappings, (run ops).leafAt path = some (key, mappings)) ∧
    (run ops).Summarised ∧
    (∀ key, (∃ path, (run ops).findAnyComplement key = some path) ↔ ∃ k ∈ (run ops).keys, k &&& key = 0) ∧
    ∀ key path, (run ops).findAnyComplement key = some path →
      ∃ k mappings, (run ops).leafAt path = some (k, mappings) ∧ k &&& key = 0 := by
  obtain ⟨hrouted, hsum, hkeys⟩ := run_spec ops
  exact ⟨fun key => (find_iff hrouted).trans (hkeys key), fun key path h => find_spec h, hsum,
    fun key => findAnyComplement_iff hsum, fun key path h => findAnyComplement_spec h⟩

end Node

end E9Patch
