import Mathlib.Data.List.Perm.Basic
import Mathlib.Data.List.FinRange
import E9Patch.Fallible
import E9Patch.MappingModel

/-!
The radix tree of page grouping: it is a decision tree over the digits of the keys, so that a leaf is found by
its key, and no mapping is lost or doubled.
-/

namespace E9Patch
open Fallible

variable {w : Nat} {α β : Type}

/-! ### Digits -/

theorem tzcount_spec {key : BitVec w} (h : key ≠ 0) : key.getLsbD (tzcount key) = true := by
  unfold tzcount
  cases hfind : (List.range w).find? fun i => key.getLsbD i with
  | some i => exact List.find?_some hfind
  | none =>
      exfalso
      apply h
      apply BitVec.eq_of_getLsbD_eq
      intro i hi
      have hbit := List.find?_eq_none.mp hfind i (List.mem_range.mpr hi)
      simpa using hbit

/-- Keys with the same digit have the same bits there. -/
theorem index_bits {shift j : Nat} {k key : BitVec w} (h : index shift k = index shift key) (hj : j < 2) :
    k.getLsbD (2 * shift + j) = key.getLsbD (2 * shift + j) := by
  have hdigit : ∀ x : BitVec w, (index shift x).val.testBit j = (x.getLsbD (2 * shift + j)) := by
    intro x
    have hmod : (index shift x).val = ((x &&& (BitVec.ofNat w 3 <<< (2 * shift))) >>> (2 * shift)).toNat % 2 ^ 2 := rfl
    rw [hmod, Nat.testBit_mod_two_pow, ← BitVec.getLsbD, BitVec.getLsbD_ushiftRight, BitVec.getLsbD_and,
      BitVec.getLsbD_shiftLeft]
    by_cases hw : 2 * shift + j < w
    · have hmask : (BitVec.ofNat w 3).getLsbD j = true := by
        rw [BitVec.getLsbD_ofNat]
        obtain rfl | rfl : j = 0 ∨ j = 1 := by omega
        · simp [show 0 < w by omega]
        · simp [show 1 < w by omega, Nat.testBit]
      simp [hw, hj, hmask]
    · rw [BitVec.getLsbD_of_ge x _ (by omega)]
      simp
  rw [← hdigit, ← hdigit, h]

/-- The digit of the first difference tells two keys apart. -/
theorem index_ne {k key : BitVec w} (h : k ≠ key) :
    index (tzcount (k ^^^ key) / BRANCH_BITS) k ≠ index (tzcount (k ^^^ key) / BRANCH_BITS) key := by
  intro heq
  have hdiff : k ^^^ key ≠ 0 := fun h0 => h (BitVec.xor_eq_zero_iff.mp h0)
  have hbit := tzcount_spec hdiff
  have hsame := index_bits heq (Nat.mod_lt (tzcount (k ^^^ key)) Nat.two_pos)
  rw [show 2 * (tzcount (k ^^^ key) / BRANCH_BITS) + tzcount (k ^^^ key) % 2 = tzcount (k ^^^ key) from
    Nat.div_add_mod _ 2] at hsame
  rw [BitVec.getLsbD_xor, hsame, Bool.xor_self] at hbit
  cases hbit

namespace Node

/-! ### What a tree holds -/

/-- The mappings, each with the key of its leaf. -/
def entries : Node w α → List (BitVec w × List α)
  | .null => []
  | .leaf key mappings => mappings.map (key, ·)
  | .inner _ _ child => (List.finRange BRANCH_MAX).flatMap fun i => (child i).entries

/-- The keys of the leaves. -/
def keys : Node w α → List (BitVec w)
  | .null => []
  | .leaf key _ => [key]
  | .inner _ _ child => (List.finRange BRANCH_MAX).flatMap fun i => (child i).keys

/-- Every leaf is where the digits of its key lead to. -/
def Routed : Node w α → Prop
  | .null => True
  | .leaf _ _ => True
  | .inner _ shift child => ∀ i, (child i).Routed ∧ ∀ key ∈ (child i).keys, index shift key = i

theorem collectMappings_eq (node : Node w α) : node.collectMappings = node.entries.map Prod.snd := by
  induction node with
  | null => rfl
  | leaf key mappings =>
      rw [collectMappings, entries, List.map_map]
      exact (List.map_id mappings).symm
  | inner key shift child ih =>
      rw [collectMappings, entries, List.map_flatMap]
      exact List.flatMap_congr fun i _ => ih i

theorem setChild_self (child : Fin BRANCH_MAX → Node w α) (idx : Fin BRANCH_MAX) :
    setChild child idx (child idx) = child := by
  funext i
  unfold setChild
  split
  · next h => rw [h]
  · rfl

theorem setChild_same {child : Fin BRANCH_MAX → Node w α} {idx : Fin BRANCH_MAX} {node : Node w α} :
    setChild child idx node idx = node := if_pos rfl

theorem setChild_other {child : Fin BRANCH_MAX → Node w α} {idx i : Fin BRANCH_MAX} {node : Node w α}
    (h : i ≠ idx) : setChild child idx node i = child i := if_neg h

/-- What the children hold, split at one of them. -/
theorem flatMap_setChild (f : Node w α → List β) (child : Fin BRANCH_MAX → Node w α) (idx : Fin BRANCH_MAX) :
    ∃ L R : List β, (∀ x ∈ L ++ R, ∃ i, i ≠ idx ∧ x ∈ f (child i)) ∧
      ∀ node, ((List.finRange BRANCH_MAX).flatMap fun i => f (setChild child idx node i)) = L ++ f node ++ R := by
  obtain ⟨as, bs, hsplit⟩ := List.append_of_mem (List.mem_finRange idx)
  have hnodup := List.nodup_finRange BRANCH_MAX
  rw [hsplit, List.nodup_append, List.nodup_cons] at hnodup
  obtain ⟨-, ⟨hbs, -⟩, hdisjoint⟩ := hnodup
  have has : ∀ i ∈ as, i ≠ idx := fun i hi => hdisjoint i hi idx List.mem_cons_self
  have hbs' : ∀ i ∈ bs, i ≠ idx := fun i hi heq => hbs (heq ▸ hi)
  refine ⟨as.flatMap fun i => f (child i), bs.flatMap fun i => f (child i), fun x hx => ?_, fun node => ?_⟩
  · rcases List.mem_append.mp hx with hx | hx
    · obtain ⟨i, hi, hx⟩ := List.mem_flatMap.mp hx
      exact ⟨i, has i hi, hx⟩
    · obtain ⟨i, hi, hx⟩ := List.mem_flatMap.mp hx
      exact ⟨i, hbs' i hi, hx⟩
  · rw [hsplit, List.flatMap_append, List.flatMap_cons, setChild_same, List.append_assoc]
    congr 1
    · exact List.flatMap_congr fun i hi => by rw [setChild_other (has i hi)]
    · congr 1
      exact List.flatMap_congr fun i hi => by rw [setChild_other (hbs' i hi)]

/-- What the children hold, as they are. -/
theorem flatMap_child (f : Node w α → List β) (child : Fin BRANCH_MAX → Node w α) (idx : Fin BRANCH_MAX) :
    ∃ L R : List β, (∀ x ∈ L ++ R, ∃ i, i ≠ idx ∧ x ∈ f (child i)) ∧
      ((List.finRange BRANCH_MAX).flatMap fun i => f (child i)) = L ++ f (child idx) ++ R ∧
      ∀ node, ((List.finRange BRANCH_MAX).flatMap fun i => f (setChild child idx node i)) = L ++ f node ++ R := by
  obtain ⟨L, R, hother, hsplit⟩ := flatMap_setChild f child idx
  refine ⟨L, R, hother, ?_, hsplit⟩
  have hself := hsplit (child idx)
  rwa [setChild_self] at hself

theorem fix_entries (shift : Nat) (child : Fin BRANCH_MAX → Node w α) :
    (fix shift child).entries = (List.finRange BRANCH_MAX).flatMap fun i => (child i).entries := rfl

theorem mem_keys_inner {k key : BitVec w} {shift : Nat} {child : Fin BRANCH_MAX → Node w α} :
    key ∈ (Node.inner k shift child).keys ↔ ∃ i, key ∈ (child i).keys := by
  rw [keys, List.mem_flatMap]
  exact ⟨fun ⟨i, _, h⟩ => ⟨i, h⟩, fun ⟨i, h⟩ => ⟨i, List.mem_finRange i, h⟩⟩

/-- Below another child, no key has the digit of this one. -/
theorem Routed.key_ne {k key : BitVec w} {shift : Nat} {child : Fin BRANCH_MAX → Node w α} {i : Fin BRANCH_MAX}
    (h : (Node.inner k shift child).Routed) (hi : i ≠ index shift key) (hk : key ∈ (child i).keys) : False :=
  hi ((h i).2 key hk).symm

theorem mem_keys_of_entries {node : Node w α} {e : BitVec w × List α} (h : e ∈ node.entries) :
    e.1 ∈ node.keys := by
  induction node with
  | null => cases h
  | leaf key mappings =>
      obtain ⟨c, -, rfl⟩ := List.mem_map.mp h
      exact List.mem_singleton_self _
  | inner key shift child ih =>
      obtain ⟨i, hi, he⟩ := List.mem_flatMap.mp h
      exact mem_keys_inner.mpr ⟨i, ih i he⟩

/-! ### Insertion -/

theorem Routed.setChild {k k' : BitVec w} {shift : Nat} {child : Fin BRANCH_MAX → Node w α}
    {idx : Fin BRANCH_MAX} {node : Node w α} (h : (Node.inner k shift child).Routed) (hnode : node.Routed)
    (hkeys : ∀ key ∈ node.keys, index shift key = idx) :
    (Node.inner k' shift (Node.setChild child idx node)).Routed := by
  intro i
  by_cases hi : i = idx
  · subst hi
    rw [setChild_same]
    exact ⟨hnode, hkeys⟩
  · rw [setChild_other hi]
    exact h i

theorem exists_setChild {P : Node w α → Prop} {child : Fin BRANCH_MAX → Node w α} {idx : Fin BRANCH_MAX}
    {node : Node w α} : (∃ i, P (Node.setChild child idx node i)) ↔ P node ∨ ∃ i, i ≠ idx ∧ P (child i) := by
  constructor
  · rintro ⟨i, hi⟩
    by_cases hidx : i = idx
    · rw [hidx, setChild_same] at hi
      exact Or.inl hi
    · rw [setChild_other hidx] at hi
      exact Or.inr ⟨i, hidx, hi⟩
  · rintro (h | ⟨i, hidx, hi⟩)
    · exact ⟨idx, by rwa [setChild_same]⟩
    · exact ⟨i, by rwa [setChild_other hidx]⟩

/-- Insertion adds its key. -/
theorem mem_keys_insert {node : Node w α} {key k' : BitVec w} {mapping : List α} :
    k' ∈ (node.insert key mapping).keys ↔ k' = key ∨ k' ∈ node.keys := by
  induction node with
  | null =>
      show k' ∈ [key] ↔ k' = key ∨ k' ∈ []
      rw [List.mem_singleton, or_iff_left List.not_mem_nil]
  | leaf k mappings =>
      rw [insert]
      by_cases hdiff : k ^^^ key = 0
      · rw [if_pos hdiff]
        obtain rfl : k = key := BitVec.xor_eq_zero_iff.mp hdiff
        rw [keys, List.mem_singleton, keys, List.mem_singleton, or_self]
      · have hindex := index_ne fun heq => hdiff (BitVec.xor_eq_zero_iff.mpr heq)
        rw [if_neg hdiff]
        generalize tzcount (k ^^^ key) / BRANCH_BITS = shift at hindex
        refine mem_keys_inner.trans ((exists_setChild (P := fun node => k' ∈ node.keys)).trans ?_)
        rw [keys, List.mem_singleton, keys, List.mem_singleton]
        refine or_congr_right ⟨fun ⟨i, _, hi⟩ => ?_, fun hk => ⟨index shift k, hindex, ?_⟩⟩
        · by_cases hik : i = index shift k
          · rw [hik, setChild_same] at hi
            exact List.mem_singleton.mp hi
          · rw [setChild_other hik] at hi
            cases hi
        · rw [setChild_same]
          exact List.mem_singleton.mpr hk
  | inner k shift child ih =>
      rw [insert]
      refine mem_keys_inner.trans ((exists_setChild (P := fun node => k' ∈ node.keys)).trans ?_)
      rw [ih, or_assoc, mem_keys_inner]
      refine or_congr_right ⟨?_, fun ⟨i, hi⟩ => ?_⟩
      · rintro (hk | ⟨i, -, hi⟩)
        · exact ⟨_, hk⟩
        · exact ⟨i, hi⟩
      · by_cases hidx : i = index shift key
        · exact Or.inl (hidx ▸ hi)
        · exact Or.inr ⟨i, hidx, hi⟩

/-- Insertion adds the mapping under its key. -/
theorem insert_spec {node : Node w α} (h : node.Routed) (key : BitVec w) (mapping : List α) :
    (node.insert key mapping).Routed ∧
    (node.insert key mapping).entries.Perm ((key, mapping) :: node.entries) := by
  induction node with
  | null => exact ⟨trivial, .refl _⟩
  | leaf k mappings =>
      rw [insert]
      by_cases hdiff : k ^^^ key = 0
      · rw [if_pos hdiff]
        obtain rfl : k = key := BitVec.xor_eq_zero_iff.mp hdiff
        exact ⟨trivial, .refl _⟩
      · have hne : k ≠ key := fun heq => hdiff (BitVec.xor_eq_zero_iff.mpr heq)
        have hindex := index_ne hne
        rw [if_neg hdiff]
        generalize tzcount (k ^^^ key) / BRANCH_BITS = shift at hindex
        have hempty : (Node.inner 0 shift fun _ => Node.null : Node w α).Routed := fun i => ⟨trivial, by simp [keys]⟩
        have hone : (Node.inner 0 shift (Node.setChild (fun _ => .null) (index shift k) (.leaf k mappings)) :
            Node w α).Routed := hempty.setChild trivial fun k' hk => by rw [List.mem_singleton.mp hk]
        refine ⟨hone.setChild trivial fun k' hk => by rw [List.mem_singleton.mp hk], ?_⟩
        obtain ⟨L', R', hnone, hleaf⟩ := flatMap_setChild entries (fun _ => (.null : Node w α)) (index shift k)
        obtain rfl : L' = [] := by
          refine List.eq_nil_iff_forall_not_mem.mpr fun x hx => ?_
          obtain ⟨i, -, hi⟩ := hnone x (List.mem_append_left _ hx)
          cases hi
        obtain rfl : R' = [] := by
          refine List.eq_nil_iff_forall_not_mem.mpr fun x hx => ?_
          obtain ⟨i, -, hi⟩ := hnone x (List.mem_append_right _ hx)
          cases hi
        obtain ⟨L, R, -, hself, hset⟩ := flatMap_child entries
          (Node.setChild (fun _ => .null) (index shift k) (.leaf k mappings)) (index shift key)
        rw [hleaf, setChild_other hindex.symm] at hself
        simp only [List.nil_append, List.append_nil, entries] at hself
        rw [fix_entries, hset]
        show (L ++ [(key, mapping)] ++ R).Perm ((key, mapping) :: mappings.map (k, ·))
        rw [hself, List.append_assoc]
        exact List.perm_middle
  | inner k shift child ih =>
      obtain ⟨hrouted, hperm⟩ := ih (index shift key) (h _).1
      rw [insert]
      refine ⟨h.setChild hrouted fun k' hk => ?_, ?_⟩
      · rcases mem_keys_insert.mp hk with rfl | hk
        · rfl
        · exact (h _).2 k' hk
      · obtain ⟨L, R, -, hself, hset⟩ := flatMap_child entries child (index shift key)
        rw [fix_entries, hset, entries, hself, List.append_assoc, List.append_assoc]
        refine ((hperm.append_right R).append_left L).trans ?_
        rw [List.cons_append]
        exact List.perm_middle

/-! ### Lookup -/

/-- The leaf that is found has the key. -/
theorem find_spec {node : Node w α} {key : BitVec w} {path : List (Fin BRANCH_MAX)}
    (h : node.find key = some path) : ∃ mappings, node.leafAt path = some (key, mappings) := by
  induction node generalizing path with
  | null => cases h
  | leaf k mappings =>
      rw [find] at h
      split at h
      · next heq =>
          cases h
          exact ⟨mappings, by rw [leafAt, heq]⟩
      · cases h
  | inner k shift child ih =>
      rw [find, Option.map_eq_some_iff] at h
      obtain ⟨path, hpath, rfl⟩ := h
      exact ih _ hpath

/-- A complement has no bit of the key. -/
theorem findAnyComplement_spec {node : Node w α} {key : BitVec w} {path : List (Fin BRANCH_MAX)}
    (h : node.findAnyComplement key = some path) :
    ∃ k mappings, node.leafAt path = some (k, mappings) ∧ k &&& key = 0 := by
  induction node generalizing path with
  | null => cases h
  | leaf k mappings =>
      rw [findAnyComplement] at h
      split at h
      · next hzero =>
          cases h
          exact ⟨k, mappings, rfl, hzero⟩
      · cases h
  | inner k shift child ih =>
      rw [findAnyComplement] at h
      obtain ⟨i, -, hi⟩ := List.exists_of_findSome?_eq_some h
      split at hi
      · cases hi
      · split at hi
        · cases hi
        · obtain ⟨path, hpath, rfl⟩ := Option.map_eq_some_iff.mp hi
          exact ih i hpath

/-- The mappings of a leaf, among all of them: the others have other keys. -/
theorem setMappings_spec {node : Node w α} (h : node.Routed) {path : List (Fin BRANCH_MAX)} {k : BitVec w}
    {mappings : List (List α)} (hleaf : node.leafAt path = some (k, mappings)) :
    k ∈ node.keys ∧
    ∃ L R : List (BitVec w × List α), (∀ e ∈ L ++ R, e.1 ≠ k) ∧ node.entries = L ++ mappings.map (k, ·) ++ R ∧
      ∀ new, (node.setMappings path new).Routed ∧ (node.setMappings path new).keys = node.keys ∧
        (node.setMappings path new).entries = L ++ new.map (k, ·) ++ R := by
  induction node generalizing path with
  | null => cases path <;> cases hleaf
  | leaf key ms =>
      cases path with
      | nil =>
          cases hleaf
          exact ⟨List.mem_singleton_self _, [], [], by simp, by simp [entries], fun new =>
            ⟨trivial, rfl, by simp [setMappings, entries]⟩⟩
      | cons i path => cases hleaf
  | inner key shift child ih =>
      cases path with
      | nil => cases hleaf
      | cons i path =>
          obtain ⟨hk, L, R, hne, hold, hnew⟩ := ih i (h i).1 hleaf
          have hindex : index shift k = i := (h i).2 k hk
          obtain ⟨L', R', hother, hself, hset⟩ := flatMap_child entries child i
          obtain ⟨Lk, Rk, -, hselfk, hsetk⟩ := flatMap_child keys child i
          refine ⟨mem_keys_inner.mpr ⟨i, hk⟩, L' ++ L, R ++ R', fun e he => ?_, ?_, fun new => ⟨?_, ?_, ?_⟩⟩
          · have he' : e ∈ L' ++ R' ∨ e ∈ L ++ R := by
              simp only [List.mem_append] at he ⊢
              tauto
            rcases he' with he' | he'
            · obtain ⟨j, hj, hej⟩ := hother e he'
              intro hek
              have hdigit := (h j).2 e.1 (mem_keys_of_entries hej)
              rw [hek, hindex] at hdigit
              exact hj hdigit.symm
            · exact hne e he'
          · rw [entries, hself, hold]
            simp only [List.append_assoc]
          · refine h.setChild (hnew new).1 fun k' hk' => ?_
            rw [(hnew new).2.1] at hk'
            exact (h i).2 k' hk'
          · rw [setMappings, keys, hsetk, keys, hselfk, (hnew new).2.1]
          · rw [setMappings, entries, hset, (hnew new).2.2]
            simp only [List.append_assoc]

/-! ### Removal -/

theorem eq_null_of_isNull {node : Node w α} (h : node.isNull = true) : node = .null := by
  cases node with
  | null => rfl
  | _ => cases h

theorem flatMap_filter {γ : Type} {f : γ → List β} {p : γ → Bool} (h : ∀ x, p x = false → f x = []) (xs : List γ) :
    xs.flatMap f = (xs.filter p).flatMap f := by
  induction xs with
  | nil => rfl
  | cons x xs ih =>
      cases hp : p x with
      | false => rw [List.filter_cons_of_neg (by simp [hp]), List.flatMap_cons, h x hp, List.nil_append, ih]
      | true => rw [List.filter_cons_of_pos hp, List.flatMap_cons, List.flatMap_cons, ih]

/-- The children that are not null. -/
def occupied (child : Fin BRANCH_MAX → Node w α) : List (Fin BRANCH_MAX) :=
  (List.finRange BRANCH_MAX).filter fun i => ¬(child i).isNull

theorem flatMap_occupied {f : Node w α → List β} (hf : f .null = []) (child : Fin BRANCH_MAX → Node w α) :
    ((List.finRange BRANCH_MAX).flatMap fun i => f (child i)) = (occupied child).flatMap fun i => f (child i) := by
  refine flatMap_filter (fun i hi => ?_) _
  have hnull : child i = .null := eq_null_of_isNull (by simpa using hi)
  rw [hnull, hf]

/-- The node that is left behind when a child has gone. -/
def collapse (k : BitVec w) (shift : Nat) (child : Fin BRANCH_MAX → Node w α) : Node w α :=
  match occupied child with
  | [] => .null
  | [i] => child i
  | _ => .inner k shift child

theorem collapse_spec (k : BitVec w) (shift : Nat) (child : Fin BRANCH_MAX → Node w α)
    (h : (Node.inner k shift child).Routed) :
    (collapse k shift child).Routed ∧ (collapse k shift child).keys = (Node.inner k shift child).keys ∧
      (collapse k shift child).entries = (Node.inner k shift child).entries := by
  have hentries := flatMap_occupied (f := entries) rfl child
  have hkeys := flatMap_occupied (f := keys) rfl child
  unfold collapse
  rcases hocc : occupied child with _ | ⟨i, _ | ⟨j, rest⟩⟩
  · rw [hocc] at hentries hkeys
    exact ⟨trivial, hkeys.symm, hentries.symm⟩
  · rw [hocc, List.flatMap_singleton] at hentries hkeys
    exact ⟨(h i).1, hkeys.symm, hentries.symm⟩
  · exact ⟨h, rfl, rfl⟩

/-- Removal takes the leaf of the key out, and nothing else. -/
theorem remove_spec {node : Node w α} (h : node.Routed) (key : BitVec w) :
    (node.remove key).Routed ∧ (node.remove key).keys = node.keys.filter (· ≠ key) ∧
      (node.remove key).entries = node.entries.filter (·.1 ≠ key) := by
  induction node with
  | null => exact ⟨trivial, rfl, rfl⟩
  | leaf k mappings =>
      rw [remove]
      by_cases hk : k = key
      · subst hk
        rw [if_neg (fun hne => hne rfl)]
        exact ⟨trivial, by simp [keys], by simp [entries]⟩
      · rw [if_pos hk]
        refine ⟨trivial, by simp [keys, hk], ?_⟩
        rw [entries, List.filter_eq_self.mpr]
        intro e he
        obtain ⟨c, -, rfl⟩ := List.mem_map.mp he
        simpa using hk
  | inner k shift child ih =>
      obtain ⟨hrouted, hkeys, hentries⟩ := ih (index shift key) (h _).1
      obtain ⟨L, R, hother, hself, hset⟩ := flatMap_child entries child (index shift key)
      obtain ⟨Lk, Rk, hotherk, hselfk, hsetk⟩ := flatMap_child keys child (index shift key)
      have hne : ∀ i, i ≠ index shift key → ∀ k' ∈ (child i).keys, k' ≠ key := fun i hi k' hk' heq =>
        h.key_ne hi (heq ▸ hk')
      have hL : ∀ e ∈ L ++ R, e.1 ≠ key := by
        intro e he
        obtain ⟨i, hi, hei⟩ := hother e he
        exact hne i hi _ (mem_keys_of_entries hei)
      have hLk : ∀ k' ∈ Lk ++ Rk, k' ≠ key := by
        intro k' hk'
        obtain ⟨i, hi, hki⟩ := hotherk k' hk'
        exact hne i hi _ hki
      generalize hc : (child (index shift key)).remove key = c at hrouted hkeys hentries
      -- whatever becomes of the node, its children are these
      have hrouted' : ∀ k', (Node.inner k' shift (Node.setChild child (index shift key) c)).Routed := fun k' =>
        h.setChild hrouted fun k'' hk'' => by
          rw [hkeys] at hk''
          exact (h _).2 k'' (List.mem_of_mem_filter hk'')
      have hchild : ((List.finRange BRANCH_MAX).flatMap fun i =>
          (Node.setChild child (index shift key) c i).entries) =
          (Node.inner k shift child).entries.filter (·.1 ≠ key) := by
        rw [hset, entries, hself, hentries, List.filter_append, List.filter_append,
          List.filter_eq_self.mpr (fun e he => decide_eq_true (hL e (List.mem_append_left _ he))),
          List.filter_eq_self.mpr (fun e he => decide_eq_true (hL e (List.mem_append_right _ he)))]
      have hchildk : ((List.finRange BRANCH_MAX).flatMap fun i =>
          (Node.setChild child (index shift key) c i).keys) = (Node.inner k shift child).keys.filter (· ≠ key) := by
        rw [hsetk, keys, hselfk, hkeys, List.filter_append, List.filter_append,
          List.filter_eq_self.mpr (fun e he => decide_eq_true (hLk e (List.mem_append_left _ he))),
          List.filter_eq_self.mpr (fun e he => decide_eq_true (hLk e (List.mem_append_right _ he)))]
      rw [remove, hc]
      by_cases hnull : c.isNull = true
      · rw [if_neg (not_not.mpr hnull)]
        obtain ⟨h1, h2, h3⟩ := collapse_spec k shift (Node.setChild child (index shift key) c) (hrouted' k)
        exact ⟨h1, h2.trans hchildk, h3.trans hchild⟩
      · rw [if_pos hnull]
        exact ⟨hrouted' _, hchildk, hchild⟩

/-! ### Merging -/

/-- No leaf is empty. -/
def Full (node : Node w α) : Prop := ∀ key ∈ node.keys, ∃ mapping, (key, mapping) ∈ node.entries

/-- The first mapping of a leaf is taken out, with the leaf if it was the last one. -/
theorem takeFirst_spec {tree : Node w α} (hrouted : tree.Routed) (hfull : tree.Full)
    {path : List (Fin BRANCH_MAX)} {k : BitVec w} {mapping : List α} {rest : List (List α)}
    (hleaf : tree.leafAt path = some (k, mapping :: rest)) {tree' : Node w α}
    (h : tree' = if rest = [] then (tree.setMappings path rest).remove k else tree.setMappings path rest) :
    tree'.Routed ∧ tree'.Full ∧ tree.entries.Perm ((k, mapping) :: tree'.entries) := by
  obtain ⟨-, L, R, hne, hold, hnew⟩ := setMappings_spec hrouted hleaf
  obtain ⟨hr, hk, he⟩ := hnew rest
  have hperm : tree.entries.Perm ((k, mapping) :: (L ++ rest.map (k, ·) ++ R)) := by
    rw [hold, List.map_cons, List.append_assoc, List.append_assoc, List.cons_append]
    exact List.perm_middle
  -- the leaves of other keys keep their mappings
  have hothers : ∀ k' ∈ tree.keys, k' ≠ k → ∃ c, (k', c) ∈ L ++ rest.map (k, ·) ++ R := by
    intro k' hk' hkk
    obtain ⟨c, hc⟩ := hfull k' hk'
    refine ⟨c, ?_⟩
    rcases List.mem_cons.mp (hperm.mem_iff.mp hc) with heq | hmem
    · exact absurd (congrArg Prod.fst heq) hkk
    · exact hmem
  by_cases hrest : rest = []
  · subst hrest
    rw [if_pos rfl] at h
    obtain ⟨hr', hk', he'⟩ := remove_spec hr k
    have hentries : tree'.entries = L ++ List.map (k, ·) [] ++ R := by
      rw [h, he', he]
      refine List.filter_eq_self.mpr fun e hmem => decide_eq_true (hne e ?_)
      simpa using hmem
    rw [hentries]
    refine ⟨h ▸ hr', fun k' hmem => ?_, hperm⟩
    rw [h, hk', hk, List.mem_filter, decide_eq_true_eq] at hmem
    rw [hentries]
    exact hothers k' hmem.1 hmem.2
  · rw [if_neg hrest] at h
    subst h
    rw [he]
    refine ⟨hr, fun k' hmem => ?_, hperm⟩
    rw [hk] at hmem
    rw [he]
    by_cases hkk : k' = k
    · subst hkk
      obtain ⟨c, rest, rfl⟩ := List.exists_cons_of_ne_nil hrest
      exact ⟨c, by simp⟩
    · exact hothers k' hmem hkk

/-- Merging succeeds: the mapping is added as it is, or with a mapping that has no bit of its key. -/
theorem merge_spec {tree : Node w α} (hrouted : tree.Routed) (hfull : tree.Full) (key : BitVec w) (mapping : α) :
    ∃ tree' : Node w α, tree.merge key mapping = .ok tree' ∧ tree'.Routed ∧ tree'.Full ∧
      (tree'.entries.Perm ((key, [mapping]) :: tree.entries) ∨
        ∃ k mappingCmp rest, k &&& key = 0 ∧ tree.entries.Perm ((k, mappingCmp) :: rest) ∧
          tree'.entries.Perm ((key ||| k, mapping :: mappingCmp) :: rest)) := by
  have hinsert : ∀ {node : Node w α} (hr : node.Routed) (hf : node.Full) (k : BitVec w) (c : List α),
      (node.insert k c).Full := by
    intro node hr hf k c k' hk'
    obtain ⟨-, hperm⟩ := insert_spec hr k c
    rcases mem_keys_insert.mp hk' with rfl | hmem
    · exact ⟨c, hperm.mem_iff.mpr List.mem_cons_self⟩
    · obtain ⟨c', hc'⟩ := hf k' hmem
      exact ⟨c', hperm.mem_iff.mpr (List.mem_cons_of_mem _ hc')⟩
  unfold merge
  cases hfind : tree.find key with
  | some path =>
      obtain ⟨mappings, hleaf⟩ := find_spec hfind
      obtain ⟨-, L, R, -, hold, hnew⟩ := setMappings_spec hrouted hleaf
      obtain ⟨hr, hk, he⟩ := hnew ([mapping] :: mappings)
      have hperm : (tree.setMappings path ([mapping] :: mappings)).entries.Perm ((key, [mapping]) :: tree.entries) := by
        rw [he, hold, List.map_cons, List.append_assoc, List.append_assoc, List.cons_append]
        exact List.perm_middle
      refine ⟨tree.setMappings path ([mapping] :: mappings), ?_, hr, fun k' hk' => ?_, Or.inl hperm⟩
      · simp only [hleaf]
        rfl
      · rw [hk] at hk'
        obtain ⟨c, hc⟩ := hfull k' hk'
        exact ⟨c, hperm.mem_iff.mpr (List.mem_cons_of_mem _ hc)⟩
  | none =>
      dsimp only
      cases hcmp : tree.findAnyComplement key with
      | none =>
          obtain ⟨hr, hperm⟩ := insert_spec hrouted key [mapping]
          exact ⟨_, rfl, hr, hinsert hrouted hfull key [mapping], Or.inl hperm⟩
      | some path =>
          obtain ⟨k, mappings, hleaf, hzero⟩ := findAnyComplement_spec hcmp
          obtain ⟨hkmem, L, R, hne, hold, -⟩ := setMappings_spec hrouted hleaf
          obtain ⟨mappingCmp, rest, rfl⟩ : ∃ c rest, mappings = c :: rest := by
            cases mappings with
            | cons c rest => exact ⟨c, rest, rfl⟩
            | nil =>
                obtain ⟨c, hc⟩ := hfull k hkmem
                rw [hold] at hc
                exact absurd rfl (hne (k, c) (by simpa using hc))
          obtain ⟨hr, hf, hperm⟩ := takeFirst_spec hrouted hfull hleaf rfl
          obtain ⟨hr', hperm'⟩ := insert_spec hr (key ||| k) (mapping :: mappingCmp)
          refine ⟨_, ?_, hr', hinsert hr hf (key ||| k) (mapping :: mappingCmp),
            Or.inr ⟨k, mappingCmp, _, hzero, hperm, hperm'⟩⟩
          simp only [hleaf]
          rfl

end Node

end E9Patch
