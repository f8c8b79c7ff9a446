import E9Patch.AllocRun
import E9Patch.ApiModel
import E9Patch.MappingTree

/-!
Page grouping: the mappings of an allocator are merged into chains, each of them once, and no offset within a
page group is occupied by two mappings of a chain. An allocation of no bytes at the base of a mapping stops a build
with assertions and is a shift by the whole width with the keys of 128 bits, and the sums of `buildMappings` overflow
for mappings that would not end in the address space.
-/

namespace E9Patch
open Bytes Fallible Intervals PtrTree

variable {τ ι α : Type} {w : Nat} {debug : Bool}

/-! ### Chains -/

/-- The mappings of a chain have bits of its key only, and no bit twice. -/
def ChainFits (keyOf : α → BitVec w) (e : BitVec w × List α) : Prop :=
  (∀ m ∈ e.2, ∀ j, (keyOf m).getLsbD j = true → e.1.getLsbD j = true) ∧
    e.2.Pairwise fun m m' => keyOf m &&& keyOf m' = 0

theorem and_eq_zero_iff {x y : BitVec w} : x &&& y = 0 ↔ ∀ j, x.getLsbD j = true → y.getLsbD j = true → False := by
  constructor
  · intro h j hx hy
    have hbit : (x &&& y).getLsbD j = true := by rw [BitVec.getLsbD_and, hx, hy, Bool.and_self]
    rw [h] at hbit
    simp at hbit
  · intro h
    apply BitVec.eq_of_getLsbD_eq
    intro j _
    rw [BitVec.getLsbD_and]
    cases hx : x.getLsbD j with
    | false => simp
    | true =>
        cases hy : y.getLsbD j with
        | false => simp
        | true => exact (h j hx hy).elim

theorem chainFits_single (keyOf : α → BitVec w) (m : α) : ChainFits keyOf (keyOf m, [m]) :=
  ⟨fun m' hm j hj => by rwa [List.mem_singleton.mp hm] at hj, List.pairwise_singleton _ _⟩

theorem ChainFits.cons {keyOf : α → BitVec w} {k : BitVec w} {chain : List α} (h : ChainFits keyOf (k, chain)) {m : α}
    (hk : k &&& keyOf m = 0) : ChainFits keyOf (keyOf m ||| k, m :: chain) := by
  refine ⟨fun m' hm j hj => ?_, List.pairwise_cons.mpr ⟨fun m' hm => ?_, h.2⟩⟩
  · rw [BitVec.getLsbD_or, Bool.or_eq_true]
    rcases List.mem_cons.mp hm with rfl | hm
    · exact Or.inl hj
    · exact Or.inr (h.1 m' hm j hj)
  · rw [and_eq_zero_iff] at hk ⊢
    exact fun j hj hj' => hk j (h.1 m' hm j hj') hj

/-- The run of all merges: every mapping is in one chain, and every chain fits. -/
theorem mergeAll_spec {keyOf : Mapping → BitVec w} {t : Tree τ ι} {SIZE : Nat} {ms : List Mapping}
    (hkeys : ∀ m ∈ ms, calculateKey debug t SIZE m = .ok (keyOf m)) {tree : Node w Mapping} (hrouted : tree.Routed)
    (hfull : tree.Full) (hfits : ∀ e ∈ tree.entries, ChainFits keyOf e) :
    ∃ tree' : Node w Mapping, (ms.foldlM (fun (tree : Node w Mapping) mapping => do
        let key ← calculateKey debug t SIZE mapping
        tree.merge key mapping) tree) = .ok tree' ∧
      (∀ e ∈ tree'.entries, ChainFits keyOf e) ∧
      (tree'.entries.flatMap Prod.snd).Perm (ms ++ tree.entries.flatMap Prod.snd) := by
  induction ms generalizing tree with
  | nil => exact ⟨tree, rfl, hfits, .refl _⟩
  | cons m ms ih =>
      have hkey := hkeys m List.mem_cons_self
      obtain ⟨tree₁, hmerge, hrouted₁, hfull₁, hcase⟩ := Node.merge_spec hrouted hfull (keyOf m) m
      have hstep : (∀ e ∈ tree₁.entries, ChainFits keyOf e) ∧
          (tree₁.entries.flatMap Prod.snd).Perm (m :: tree.entries.flatMap Prod.snd) := by
        rcases hcase with hperm | ⟨k, mappingCmp, rest, hzero, hold, hnew⟩
        · refine ⟨fun e he => ?_, hperm.flatMap_right Prod.snd⟩
          rcases List.mem_cons.mp (hperm.mem_iff.mp he) with rfl | he
          · exact chainFits_single keyOf m
          · exact hfits e he
        · refine ⟨fun e he => ?_, ?_⟩
          · rcases List.mem_cons.mp (hnew.mem_iff.mp he) with rfl | he
            · exact (hfits (k, mappingCmp) (hold.mem_iff.mpr List.mem_cons_self)).cons hzero
            · exact hfits e (hold.mem_iff.mpr (List.mem_cons_of_mem _ he))
          · refine (hnew.flatMap_right Prod.snd).trans ?_
            exact ((hold.flatMap_right Prod.snd).symm).cons m
      obtain ⟨tree', hrun, hfits', hperm'⟩ :=
        ih (fun m' hm => hkeys m' (List.mem_cons_of_mem _ hm)) hrouted₁ hfull₁ hstep.1
      refine ⟨tree', ?_, hfits', hperm'.trans ?_⟩
      · rw [List.foldlM_cons, bind_ok]
        refine ⟨tree₁, ?_, hrun⟩
        rw [hkey]
        exact hmerge
      · refine (hstep.2.append_left ms).trans ?_
        exact List.perm_middle

/-! ### Occupancy -/

/-- The byte at an offset of a mapping is one of a trampoline. -/
def OffsetOccupied (t : Tree τ ι) (live : List Nat) (m : Mapping) (o : Int) : Prop :=
  0 ≤ o ∧ o < m.size ∧ ∃ n ∈ live, (t.heap.alloc n).T.isSome ∧
    (t.heap.alloc n).lb ≤ m.base + o ∧ m.base + o < (t.heap.alloc n).ub

/-- A mapping at an allocation that reaches into it, behind those that end before it. -/
structure Covers (t : Tree τ ι) (ids : List Nat) (SIZE : Nat) (m : Mapping) : Prop where
  size : m.size = SIZE
  split : ∃ as bs, ids = as ++ m.i :: bs ∧ ∀ n ∈ as, (t.heap.alloc n).T.isSome → (t.heap.alloc n).ub ≤ m.base
  used : (t.heap.alloc m.i).T.isSome
  lower : (t.heap.alloc m.i).lb < m.base → m.base < (t.heap.alloc m.i).ub
  upper : (t.heap.alloc m.i).lb < m.base + SIZE

/-- A mapping that starts with an allocation of no bytes at its base. -/
def StartsEmpty (t : Tree τ ι) (m : Mapping) : Prop :=
  (t.heap.alloc m.i).lb = m.base ∧ (t.heap.alloc m.i).ub = m.base

instance (t : Tree τ ι) (m : Mapping) : Decidable (StartsEmpty t m) := inferInstanceAs (Decidable (_ ∧ _))

/-- A mapping for which no key is computed. A release build goes on with the keys of 4096 bits. -/
def Keyless (debug : Bool) (w : Nat) (t : Tree τ ι) (m : Mapping) : Prop :=
  StartsEmpty t m ∧ (debug = true ∨ w = 128)

instance (debug : Bool) (w : Nat) (t : Tree τ ι) (m : Mapping) : Decidable (Keyless debug w t m) :=
  inferInstanceAs (Decidable (_ ∧ _))

theorem assertIn_of {p : Prop} [Decidable p] (h : p) : assertIn debug p = .ok () := by
  unfold assertIn assert
  rw [if_pos h, ite_self]

theorem shiftable_of {n : Nat} (h : n < w) : shiftable w n = .ok () :=
  if_neg fun h' => h'.2 h

/-- The bits of an allocation that starts behind the base. -/
theorem getLsbD_range {prologue postscript j : Nat} :
    ((BitVec.allOnes w <<< prologue) &&& (BitVec.allOnes w >>> postscript)).getLsbD j =
      decide (prologue ≤ j ∧ postscript + j < w) := by
  rw [BitVec.getLsbD_and, BitVec.getLsbD_shiftLeft, BitVec.getLsbD_ushiftRight, BitVec.getLsbD_allOnes,
    BitVec.getLsbD_allOnes]
  by_cases h1 : prologue ≤ j
  · by_cases h2 : postscript + j < w
    · simp [h1, h2, show j < w by omega, show j - prologue < w by omega]
    · simp [h2]
  · simp [h1, show j < prologue by omega]

/-- The loop over the allocations that start in the mapping or behind it: its assertions hold where they are kept, and
every byte of a trampoline has its bit. -/
theorem keyLoop_spec {t : Tree τ ι} {BASE : Int} {SIZE UNIT : Nat} (hunit : 0 < UNIT) (hsize : SIZE = UNIT * w)
    {ns : List Nat} (hsorted : Sorted t.heap.lo t.heap.hi ns) (hbase : ∀ n ∈ ns, BASE ≤ t.heap.lo n)
    (hempty : ∀ n ∈ ns, BASE < t.heap.hi n ∨ debug = false ∧ w ≠ 128) (key : BitVec w) :
    ∃ key' : BitVec w, keyLoop debug t BASE (BASE + SIZE) UNIT ns key = .ok key' ∧
      (∀ j, key.getLsbD j = true → key'.getLsbD j = true) ∧
      ∀ n ∈ ns, (t.heap.alloc n).T.isSome → ∀ o : Nat, o < SIZE → t.heap.lo n ≤ BASE + o →
        BASE + o < t.heap.hi n → key'.getLsbD (o / UNIT) = true := by
  induction ns generalizing key with
  | nil => exact ⟨key, rfl, fun j hj => hj, fun n hn => nomatch hn⟩
  | cons n ns ih =>
      obtain ⟨hpair, hle⟩ := hsorted
      rw [List.pairwise_cons] at hpair
      have hb : BASE ≤ (t.heap.alloc n).lb := hbase n List.mem_cons_self
      have hn : (t.heap.alloc n).lb ≤ (t.heap.alloc n).ub := hle n List.mem_cons_self
      have hub : BASE < (t.heap.alloc n).ub ∨ debug = false ∧ w ≠ 128 := hempty n List.mem_cons_self
      have ih := ih ⟨hpair.2, fun n' h => hle n' (List.mem_cons_of_mem _ h)⟩
        (fun n' h => hbase n' (List.mem_cons_of_mem _ h)) (fun n' h => hempty n' (List.mem_cons_of_mem _ h))
      rw [keyLoop]
      dsimp only
      rw [assertIn_of (show (t.heap.alloc n).lb ≥ BASE from hb)]
      by_cases hend : (t.heap.alloc n).lb ≥ BASE + SIZE
      · refine ⟨key, ?_, fun j hj => hj, fun n' hn' hT o ho hlo hhi => ?_⟩
        · show (if _ then _ else _) = _
          rw [if_pos hend]
        · exfalso
          rcases List.mem_cons.mp hn' with rfl | hn'
          · have : (t.heap.alloc n').lb ≤ BASE + o := hlo
            omega
          · have h1 : (t.heap.alloc n).ub ≤ (t.heap.alloc n').lb := hpair.1 n' hn'
            have h2 : (t.heap.alloc n').lb ≤ BASE + o := hlo
            omega
      · by_cases hnone : (t.heap.alloc n).T.isNone = true
        · obtain ⟨key', hrun, hmono, hbits⟩ := ih key
          refine ⟨key', ?_, hmono, fun n' hn' hT => ?_⟩
          · show (if _ then _ else if _ then _ else _) = _
            rw [if_neg hend, if_pos hnone]
            exact hrun
          · rcases List.mem_cons.mp hn' with rfl | hn'
            · rw [Option.isNone_iff_eq_none] at hnone
              rw [hnone] at hT
              cases hT
            · exact hbits n' hn' hT
        · have hprologue : ((t.heap.alloc n).lb - BASE).toNat / UNIT < w := by
            rw [Nat.div_lt_iff_lt_mul hunit, Nat.mul_comm, ← hsize]
            omega
          generalize hp : ((t.heap.alloc n).lb - BASE).toNat / UNIT = prologue at hprologue
          generalize hgap : (if (t.heap.alloc n).ub ≥ BASE + SIZE then 0
            else (BASE + SIZE - (t.heap.alloc n).ub).toNat) = gap
          have hgap' : ∀ o : Nat, o < SIZE → BASE + o < (t.heap.alloc n).ub → o + gap < SIZE := by
            subst hgap
            split_ifs <;> intro o ho hou <;> omega
          have hpostscript : assertIn debug (gap / UNIT < w) = .ok () ∧ shiftable w (gap / UNIT) = .ok () := by
            rcases hub with hub | ⟨hrelease, hwide⟩
            · have hlt : gap / UNIT < w := by
                rw [Nat.div_lt_iff_lt_mul hunit, Nat.mul_comm, ← hsize]
                subst hgap
                split_ifs <;> omega
              exact ⟨assertIn_of hlt, shiftable_of hlt⟩
            · rw [hrelease]
              exact ⟨rfl, if_neg fun h => hwide h.1⟩
          obtain ⟨key', hrun, hmono, hbits⟩ :=
            ih (key ||| ((BitVec.allOnes w <<< prologue) &&& (BitVec.allOnes w >>> (gap / UNIT))))
          refine ⟨key', ?_, fun j hj => hmono j ?_, fun n' hn' hT o ho hlo hhi => ?_⟩
          · show (if _ then _ else if _ then _ else _) = _
            rw [if_neg hend, if_neg hnone]
            show (assertIn _ _ >>= fun _ => assertIn _ _ >>= fun _ => shiftable _ _ >>= fun _ => shiftable _ _ >>=
              fun _ => _) = _
            rw [assertIn_of hprologue, hpostscript.1, shiftable_of hprologue, hpostscript.2]
            exact hrun
          · rw [BitVec.getLsbD_or, hj, Bool.true_or]
          · rcases List.mem_cons.mp hn' with rfl | hn'
            · apply hmono
              rw [BitVec.getLsbD_or, getLsbD_range, Bool.or_eq_true, decide_eq_true_eq]
              refine Or.inr ⟨?_, ?_⟩
              · have h1 : (t.heap.alloc n').lb ≤ BASE + o := hlo
                rw [← hp]
                exact Nat.div_le_div_right (by omega)
              · have h2 := hgap' o ho hhi
                have h3 : gap / UNIT + o / UNIT ≤ (gap + o) / UNIT := by
                  rw [Nat.le_div_iff_mul_le hunit, Nat.add_mul]
                  exact Nat.add_le_add (Nat.div_mul_le_self gap UNIT) (Nat.div_mul_le_self o UNIT)
                have h4 : (gap + o) / UNIT < w := by
                  rw [Nat.div_lt_iff_lt_mul hunit, Nat.mul_comm, ← hsize]
                  omega
                omega
            · exact hbits n' hn' hT o ho hlo hhi

theorem from_eq {t : Tree τ ι} {s : Shape Nat} (hl : Linked t s) {as bs : List Nat} {i : Nat}
    (h : s.inorder = as ++ i :: bs) : t.from i = i :: bs := by
  have hlen := size_le_fresh hl
  rw [← Shape.length_inorder, h, List.length_append] at hlen
  exact visit_spec hl h (by omega)

/-- The key of a mapping that has one has the bits of all trampoline bytes in it. -/
theorem calculateKey_spec {t : Tree τ ι} {s : Shape Nat} (hl : Linked t s) {SIZE : Nat} (hw : 0 < w)
    (hdvd : w ∣ SIZE) (hpos : 0 < SIZE) {m : Mapping} (hm : Covers t s.inorder SIZE m) (hne : ¬Keyless debug w t m) :
    ∃ key : BitVec w, calculateKey debug t SIZE m = .ok key ∧
      ∀ o : Nat, OffsetOccupied t s.inorder m o → key.getLsbD (o / (SIZE / w)) = true := by
  obtain ⟨as, bs, hsplit, hbefore⟩ := hm.split
  obtain ⟨UNIT, rfl⟩ := hdvd
  have hunit : 0 < UNIT := Nat.pos_of_mul_pos_left hpos
  have hsorted : Sorted t.heap.lo t.heap.hi s.inorder := hl.ordered.1
  rw [hsplit] at hsorted
  have hi : (t.heap.alloc m.i).lb ≤ (t.heap.alloc m.i).ub := hsorted.2 m.i (by simp)
  have hsorted' : Sorted t.heap.lo t.heap.hi (m.i :: bs) :=
    ⟨(List.pairwise_append.mp hsorted.1).2.1, fun n hn => hsorted.2 n (List.mem_append_right _ hn)⟩
  have hnext : ∀ n ∈ bs, (t.heap.alloc m.i).ub ≤ t.heap.lo n := (List.pairwise_cons.mp hsorted'.1).1
  have hub : m.base < (t.heap.alloc m.i).ub ∨ (t.heap.alloc m.i).lb = m.base ∧ debug = false ∧ w ≠ 128 := by
    by_cases hlb : (t.heap.alloc m.i).lb < m.base
    · exact Or.inl (hm.lower hlb)
    · rcases Int.lt_or_le m.base (t.heap.alloc m.i).ub with h | h
      · exact Or.inl h
      · have hempty : StartsEmpty t m := ⟨by omega, by omega⟩
        have hnot := not_or.mp fun h => hne ⟨hempty, h⟩
        exact Or.inr ⟨hempty.1, Bool.eq_false_iff.mpr hnot.1, hnot.2⟩
  have hbs : ∀ n ∈ bs, m.base ≤ t.heap.lo n := fun n hn => by
    have := hnext n hn
    omega
  have hends : ∀ n ∈ m.i :: bs, m.base < t.heap.hi n ∨ debug = false ∧ w ≠ 128 := by
    rcases hub with hub | ⟨-, hbuild⟩
    · intro n hn
      refine Or.inl ?_
      rcases List.mem_cons.mp hn with rfl | hn
      · exact hub
      · exact Int.lt_of_lt_of_le hub (Int.le_trans (hnext n hn) (hsorted'.2 n (List.mem_cons_of_mem _ hn)))
    · exact fun n _ => Or.inr hbuild
  have hsize : w * UNIT = UNIT * w := Nat.mul_comm w UNIT
  have hbit : ∀ o : Nat, o < w * UNIT → o / UNIT < w := fun o ho => by
    rwa [Nat.div_lt_iff_lt_mul hunit]
  unfold calculateKey
  rw [from_eq hl hsplit, Nat.mul_div_cancel_left UNIT hw]
  dsimp only
  by_cases hlb : (t.heap.alloc m.i).lb < m.base
  · rw [if_pos hlb]
    by_cases hend : (t.heap.alloc m.i).ub ≥ m.base + (w * UNIT : Nat)
    · rw [if_pos hend]
      refine ⟨_, rfl, fun o ho => ?_⟩
      rw [BitVec.getLsbD_allOnes, decide_eq_true_eq]
      exact hbit o (by have := hm.size; have := ho.2.1; omega)
    · rw [if_neg hend]
      generalize hoverlap : (((w * UNIT : Nat) - (m.base + (w * UNIT : Nat) - (t.heap.alloc m.i).ub)).toNat
        + UNIT - 1) / UNIT = overlap
      by_cases hall : overlap ≥ w
      · rw [if_pos hall]
        refine ⟨_, rfl, fun o ho => ?_⟩
        rw [BitVec.getLsbD_allOnes, decide_eq_true_eq]
        exact hbit o (by have := hm.size; have := ho.2.1; omega)
      · rw [if_neg hall, List.tail_cons]
        obtain ⟨key, hrun, hmono, hbits⟩ := keyLoop_spec hunit hsize
          ⟨(List.pairwise_cons.mp hsorted'.1).2, fun n hn => hsorted'.2 n (List.mem_cons_of_mem _ hn)⟩
          hbs (fun n hn => hends n (List.mem_cons_of_mem _ hn)) (~~~(BitVec.allOnes w <<< overlap))
        refine ⟨key, hrun, fun o ho => ?_⟩
        obtain ⟨-, ho, n, hn, hT, hlo, hhi⟩ := ho
        rw [hm.size] at ho
        rw [hsplit] at hn
        rcases List.mem_append.mp hn with hn | hn
        · have := hbefore n hn hT
          omega
        · rcases List.mem_cons.mp hn with rfl | hn
          · -- the bytes of the allocation that started before the mapping
            apply hmono
            have hlow : o / UNIT < overlap := by
              rw [← hoverlap, Nat.lt_iff_add_one_le, Nat.le_div_iff_mul_le hunit, Nat.add_mul, Nat.one_mul]
              have := Nat.div_mul_le_self o UNIT
              omega
            rw [BitVec.getLsbD_not, BitVec.getLsbD_shiftLeft]
            simp [hbit o (by omega), hlow]
          · exact hbits n hn hT o (by omega) hlo hhi
  · rw [if_neg hlb]
    obtain ⟨key, hrun, -, hbits⟩ := keyLoop_spec hunit hsize hsorted'
      (fun n hn => by
        rcases List.mem_cons.mp hn with rfl | hn
        · exact Int.not_lt.mp hlb
        · exact hbs n hn)
      hends (0 : BitVec w)
    refine ⟨key, hrun, fun o ho => ?_⟩
    obtain ⟨-, ho, n, hn, hT, hlo, hhi⟩ := ho
    rw [hm.size] at ho
    rw [hsplit] at hn
    rcases List.mem_append.mp hn with hn | hn
    · have := hbefore n hn hT
      omega
    · exact hbits n hn hT o (by omega) hlo hhi

/-- Otherwise an assertion fails, or a shift is undefined. -/
theorem calculateKey_empty {t : Tree τ ι} {s : Shape Nat} (hl : Linked t s) {SIZE : Nat} (hw : 0 < w)
    (hdvd : w ∣ SIZE) (hpos : 0 < SIZE) {m : Mapping} (hm : Covers t s.inorder SIZE m) (hempty : Keyless debug w t m)
    (key : BitVec w) : calculateKey debug t SIZE m ≠ .ok key := by
  obtain ⟨as, bs, hsplit, -⟩ := hm.split
  obtain ⟨UNIT, rfl⟩ := hdvd
  have hunit : 0 < UNIT := Nat.pos_of_mul_pos_left hpos
  obtain ⟨⟨hlb, hub⟩, hbuild⟩ := hempty
  have hused : ¬(t.heap.alloc m.i).T.isNone = true := by
    have := hm.used
    cases hT : (t.heap.alloc m.i).T with
    | none => simp [hT] at this
    | some T => simp
  unfold calculateKey
  rw [from_eq hl hsplit, Nat.mul_div_cancel_left UNIT hw]
  dsimp only
  rw [if_neg (by omega), keyLoop, hlb, hub]
  dsimp only
  rw [assertIn_of (Int.le_refl m.base)]
  show (if _ then _ else if _ then _ else _) ≠ _
  rw [if_neg (by omega), if_neg hused, if_neg (by omega), Int.sub_self]
  have hpostscript : (m.base + (w * UNIT : Nat) - m.base).toNat / UNIT = w := by
    rw [show (m.base + (w * UNIT : Nat) - m.base).toNat = w * UNIT by omega, Nat.mul_div_cancel _ hunit]
  rw [hpostscript]
  intro h
  obtain ⟨_, -, h⟩ := bind_ok.mp h
  obtain ⟨_, hassert, h⟩ := bind_ok.mp h
  obtain ⟨_, -, h⟩ := bind_ok.mp h
  obtain ⟨_, hshift, -⟩ := bind_ok.mp h
  rcases hbuild with rfl | rfl
  · simp [assertIn, assert] at hassert
  · simp [shiftable] at hshift

/-! ### The mappings of an allocator -/

/-- The mappings that an allocation reaches into, over unbounded addresses. -/
def coverSpan (t : Tree τ ι) (SIZE i : Nat) : Nat → Building → Building
  | 0, s => s
  | fuel + 1, s =>
    if s.base + SIZE < (t.heap.alloc i).ub then
      coverSpan t SIZE i fuel (startMapping t SIZE i s (s.base + SIZE))
    else s

def coverStep (t : Tree τ ι) (SIZE : Nat) (s : Building) (i : Nat) : Building :=
  let a := t.heap.alloc i
  if a.T.isNone then s
  else
    let s := if a.lb ≥ s.base + SIZE then startMapping t SIZE i s (a.lb - a.lb % SIZE) else s
    coverSpan t SIZE i (a.ub - s.base).toNat s

/-- The mappings of an allocator over unbounded addresses: multiples of `SIZE`, one for each block with a byte of a
trampoline. -/
def coverMappings (t : Tree τ ι) (SIZE : Nat) : List Mapping :=
  let s := (t.visit (t.heap.fresh + 1) t.first).foldl (coverStep t SIZE) ⟨INTPTR_MIN, none, []⟩
  saveMapping t s.mapping s.mappings

/-- What `coverMappings` has saved: mappings in ascending order below `base`, with bounds within them. -/
structure Saved (t : Tree τ ι) (ids : List Nat) (SIZE : Nat) (base : Int) (ms : List Mapping) : Prop where
  covers : ∀ m ∈ ms, Covers t ids SIZE m
  bounds : ∀ m ∈ ms, 0 ≤ m.lb ∧ m.ub ≤ SIZE
  below : ∀ m ∈ ms, m.base < base
  ascending : ms.Pairwise fun m m' => m.base < m'.base

/-- The state of `coverMappings` behind the allocations `done`. -/
structure Built (t : Tree τ ι) (ids : List Nat) (SIZE : Nat) (done : List Nat) (s : Building) : Prop where
  dvd : (SIZE : Int) ∣ s.base
  passed : ∀ n ∈ done, (t.heap.alloc n).T.isSome → (t.heap.alloc n).ub ≤ s.base + SIZE
  current : ∀ m, s.mapping = some m → m.base = s.base ∧ Covers t ids SIZE m
  saved : Saved t ids SIZE s.base s.mappings

theorem boundsLoop_spec {t : Tree τ ι} {BASE END : Int} (ns : List Nat) {b : Int × Int} (h0 : 0 ≤ b.1)
    (h1 : b.2 ≤ END - BASE) :
    0 ≤ (boundsLoop t BASE END ns b).1 ∧ (boundsLoop t BASE END ns b).2 ≤ END - BASE := by
  induction ns generalizing b with
  | nil => exact ⟨h0, h1⟩
  | cons n ns ih =>
      rw [boundsLoop]
      dsimp only
      by_cases hend : (t.heap.alloc n).lb ≥ END
      · rw [if_pos hend]
        exact ⟨h0, h1⟩
      · rw [if_neg hend]
        by_cases hnone : (t.heap.alloc n).T.isNone = true
        · rw [if_pos hnone]
          exact ih h0 h1
        · rw [if_neg hnone]
          refine ih ?_ ?_
          · show 0 ≤ min b.1 _
            split_ifs <;> omega
          · show max b.2 _ ≤ END - BASE
            split_ifs <;> omega

theorem Saved.save {t : Tree τ ι} {ids : List Nat} {SIZE : Nat} {base base' : Int} {ms : List Mapping}
    (h : Saved t ids SIZE base ms) {mapping : Option Mapping}
    (hm : ∀ m, mapping = some m → m.base = base ∧ Covers t ids SIZE m) (hlt : base < base') :
    Saved t ids SIZE base' (saveMapping t mapping ms) := by
  cases mapping with
  | none => exact ⟨h.covers, h.bounds, fun m hm => Int.lt_trans (h.below m hm) hlt, h.ascending⟩
  | some m =>
      obtain ⟨hbase, hcovers⟩ := hm m rfl
      have hmin : INTPTR_MIN ≤ m.base + m.size - m.base := by
        unfold INTPTR_MIN
        omega
      have hb : 0 ≤ (calculateBounds t m).1 ∧ (calculateBounds t m).2 ≤ m.base + m.size - m.base :=
        boundsLoop_spec (t.from m.i) (show 0 ≤ INTPTR_MAX by decide) hmin
      have hsave : saveMapping t (some m) ms =
          ms ++ [{ m with lb := (calculateBounds t m).1, ub := (calculateBounds t m).2 }] := rfl
      rw [hsave]
      refine ⟨fun m' hm' => ?_, fun m' hm' => ?_, fun m' hm' => ?_, ?_⟩
      · rcases List.mem_append.mp hm' with hm' | hm'
        · exact h.covers m' hm'
        · rw [List.mem_singleton.mp hm']
          exact ⟨hcovers.size, hcovers.split, hcovers.used, hcovers.lower, hcovers.upper⟩
      · rcases List.mem_append.mp hm' with hm' | hm'
        · exact h.bounds m' hm'
        · rw [List.mem_singleton.mp hm']
          refine ⟨hb.1, ?_⟩
          have hub : (calculateBounds t m).2 ≤ m.base + m.size - m.base := hb.2
          show (calculateBounds t m).2 ≤ SIZE
          have := hcovers.size
          omega
      · rcases List.mem_append.mp hm' with hm' | hm'
        · exact Int.lt_trans (h.below m' hm') hlt
        · rw [List.mem_singleton.mp hm']
          show m.base < base'
          omega
      · refine List.pairwise_append.mpr ⟨h.ascending, List.pairwise_singleton _ _, fun m' hm' m'' hm'' => ?_⟩
        rw [List.mem_singleton.mp hm'']
        show m'.base < m.base
        rw [hbase]
        exact h.below m' hm'

/-- A new mapping is started for an allocation that reaches into it. -/
theorem Built.start {t : Tree τ ι} {ids done : List Nat} {SIZE i : Nat} {s : Building} (hpos : 0 < SIZE)
    (h : Built t ids SIZE done s) {bs : List Nat} (hsplit : ids = done ++ i :: bs)
    (hT : (t.heap.alloc i).T.isSome) {base : Int} (hdvd : (SIZE : Int) ∣ base) (hbase : s.base + SIZE ≤ base)
    (hlower : (t.heap.alloc i).lb < base → base < (t.heap.alloc i).ub) (hupper : (t.heap.alloc i).lb < base + SIZE) :
    Built t ids SIZE done (startMapping t SIZE i s base) where
  dvd := hdvd
  passed := fun n hn hT => by
    have := h.passed n hn hT
    show (t.heap.alloc n).ub ≤ base + SIZE
    omega
  current := by
    rintro m ⟨⟩
    refine ⟨rfl, rfl, ⟨done, bs, hsplit, fun n hn hT => ?_⟩, hT, hlower, hupper⟩
    exact Int.le_trans (h.passed n hn hT) hbase
  saved := h.saved.save h.current (show s.base < base by omega)

theorem coverSpan_spec {t : Tree τ ι} {ids done : List Nat} {SIZE i : Nat} (hpos : 0 < SIZE) {bs : List Nat}
    (hsplit : ids = done ++ i :: bs) (hT : (t.heap.alloc i).T.isSome) {fuel : Nat} {s : Building}
    (h : Built t ids SIZE done s) (hlb : (t.heap.alloc i).lb < s.base + SIZE)
    (hfuel : (t.heap.alloc i).ub - s.base ≤ fuel) :
    Built t ids SIZE (done ++ [i]) (coverSpan t SIZE i fuel s) := by
  induction fuel generalizing s with
  | zero =>
      refine ⟨h.dvd, fun n hn hT => ?_, h.current, h.saved⟩
      show (t.heap.alloc n).ub ≤ s.base + SIZE
      rcases List.mem_append.mp hn with hn | hn
      · exact h.passed n hn hT
      · rw [List.mem_singleton.mp hn]
        omega
  | succ fuel ih =>
      rw [coverSpan]
      by_cases hspan : s.base + SIZE < (t.heap.alloc i).ub
      · rw [if_pos hspan]
        refine ih (h.start hpos hsplit hT ?_ (Int.le_refl _) (fun _ => hspan) (by omega)) ?_ ?_
        · exact (Int.dvd_add h.dvd (Int.dvd_refl _))
        · show (t.heap.alloc i).lb < s.base + SIZE + SIZE
          omega
        · show (t.heap.alloc i).ub - (s.base + SIZE) ≤ fuel
          omega
      · rw [if_neg hspan]
        refine ⟨h.dvd, fun n hn hT => ?_, h.current, h.saved⟩
        rcases List.mem_append.mp hn with hn | hn
        · exact h.passed n hn hT
        · rw [List.mem_singleton.mp hn]
          omega

theorem coverStep_spec {t : Tree τ ι} {ids done : List Nat} {SIZE i : Nat} (hpos : 0 < SIZE) {bs : List Nat}
    (hsplit : ids = done ++ i :: bs) {s : Building} (h : Built t ids SIZE done s) :
    Built t ids SIZE (done ++ [i]) (coverStep t SIZE s i) := by
  unfold coverStep
  dsimp only
  by_cases hnone : (t.heap.alloc i).T.isNone = true
  · rw [if_pos hnone]
    refine ⟨h.dvd, fun n hn hT => ?_, h.current, h.saved⟩
    rcases List.mem_append.mp hn with hn | hn
    · exact h.passed n hn hT
    · rw [List.mem_singleton.mp hn, Option.isNone_iff_eq_none.mp hnone] at hT
      cases hT
  · have hT : (t.heap.alloc i).T.isSome := by
      rw [Option.isNone_iff_eq_none] at hnone
      exact Option.isSome_iff_ne_none.mpr hnone
    rw [if_neg hnone]
    by_cases hlb : (t.heap.alloc i).lb ≥ s.base + SIZE
    · rw [if_pos hlb]
      have hmod := Int.emod_nonneg (t.heap.alloc i).lb (show (SIZE : Int) ≠ 0 by omega)
      have hmod' := Int.emod_lt_of_pos (t.heap.alloc i).lb (show (0 : Int) < SIZE by omega)
      have hdvd : (SIZE : Int) ∣ (t.heap.alloc i).lb - (t.heap.alloc i).lb % SIZE :=
        Int.dvd_self_sub_of_emod_eq rfl
      have hle : s.base + SIZE ≤ (t.heap.alloc i).lb - (t.heap.alloc i).lb % SIZE := by
        obtain ⟨a, ha⟩ := h.dvd
        have hnext : (SIZE : Int) * (a + 1) = s.base + SIZE := by rw [Int.mul_add, Int.mul_one, ha]
        have hquot : a + 1 ≤ (t.heap.alloc i).lb / SIZE := by
          refine Int.le_ediv_of_mul_le (by omega) ?_
          rw [Int.mul_comm, hnext]
          exact hlb
        have hmul := Int.mul_le_mul_of_nonneg_left hquot (show (0 : Int) ≤ SIZE by omega)
        rw [Int.emod_def]
        omega
      refine coverSpan_spec hpos hsplit hT (h.start hpos hsplit hT hdvd hle (fun hlt => ?_) (by omega)) ?_ ?_
      · omega
      · show (t.heap.alloc i).lb < (t.heap.alloc i).lb - (t.heap.alloc i).lb % SIZE + SIZE
        omega
      · exact Int.self_le_toNat _
    · rw [if_neg hlb]
      exact coverSpan_spec hpos hsplit hT h (Int.not_le.mp hlb) (Int.self_le_toNat _)

/-- The iterators of an allocator give its allocations. -/
theorem visit_eq {t : Tree τ ι} {s : Shape Nat} (hl : Linked t s) :
    t.visit (t.heap.fresh + 1) t.first = s.inorder := by
  rw [first_spec hl]
  apply visit_spec hl (List.nil_append _).symm
  rw [Shape.length_inorder]
  exact Nat.le_succ_of_le (size_le_fresh hl)

/-- The mappings of an allocator are in ascending order, each at an allocation that reaches into it. -/
theorem coverMappings_spec {t : Tree τ ι} {s : Shape Nat} (hl : Linked t s) {SIZE : Nat} (hpos : 0 < SIZE)
    (hdvd : (SIZE : Int) ∣ INTPTR_MIN) :
    (∀ m ∈ coverMappings t SIZE, Covers t s.inorder SIZE m ∧ 0 ≤ m.lb ∧ m.ub ≤ SIZE) ∧
      (coverMappings t SIZE).Pairwise fun m m' => m.base < m'.base := by
  have hrun : ∀ (rest done : List Nat) (b : Building), s.inorder = done ++ rest → Built t s.inorder SIZE done b →
      Built t s.inorder SIZE s.inorder (rest.foldl (coverStep t SIZE) b) := by
    intro rest
    induction rest with
    | nil =>
        intro done b hsplit h
        rw [List.append_nil] at hsplit
        rw [hsplit] at h ⊢
        exact h
    | cons i rest ih =>
        intro done b hsplit h
        exact ih (done ++ [i]) _ (by rw [hsplit, List.append_assoc]; rfl) (coverStep_spec hpos hsplit h)
  have hbuilt := hrun s.inorder [] ⟨INTPTR_MIN, none, []⟩ rfl
    ⟨hdvd, fun n hn => (nomatch hn), fun m hm => (nomatch hm),
      ⟨fun m hm => (nomatch hm), fun m hm => (nomatch hm), fun m hm => (nomatch hm), .nil⟩⟩
  unfold coverMappings
  rw [visit_eq hl]
  have hsaved := hbuilt.saved.save hbuilt.current (Int.lt_succ _)
  exact ⟨fun m hm => ⟨hsaved.covers m hm, hsaved.bounds m hm⟩, hsaved.ascending⟩

/-! ### The sums of `intptr_t` -/

/-- The mappings of an allocation with a trampoline end in the address space. -/
def MappingsFit (t : Tree τ ι) (SIZE n : Nat) : Prop :=
  (t.heap.alloc n).T.isSome → SIZE < 2 ^ 63 ∧ (t.heap.alloc n).lb + SIZE ≤ INTPTR_MAX ∧
    (t.heap.alloc n).ub + SIZE ≤ 2 ^ 63

instance (t : Tree τ ι) (SIZE n : Nat) : Decidable (MappingsFit t SIZE n) := inferInstanceAs (Decidable (_ → _))

/-- The base of a round, from which the next sum is computed. -/
structure InSpace (SIZE : Nat) (base : Int) : Prop where
  dvd : (SIZE : Int) ∣ base
  lower : INTPTR_MIN ≤ base
  signed : SIZE < 2 ^ 63 ∨ base = INTPTR_MIN

theorem nextBase_ok {SIZE : Nat} {s : Building} {base : Int} (hmin : (SIZE : Int) ∣ INTPTR_MIN)
    (hs : InSpace SIZE s.base) :
    nextBase SIZE s = .ok base ↔ base = s.base + SIZE ∧ SIZE < 2 ^ 63 ∧ s.base + SIZE ≤ INTPTR_MAX := by
  obtain ⟨-, hlower, hsigned⟩ := hs
  have hle := Int.le_of_dvd (b := 2 ^ 63) (by decide) (Int.dvd_neg.mp hmin)
  have hdefined : nextBase SIZE s = .ok base ↔ checked (s.base + signed64 SIZE) = .ok base := by
    unfold nextBase
    cases checked (s.base + signed64 SIZE) <;> simp [defined, Except.mapError]
  rw [hdefined, checked_ok]
  unfold INTPTR_MIN INTPTR_MAX at *
  rcases Nat.lt_or_ge SIZE (2 ^ 63) with hlt | hge
  · rw [signed64_eq (by omega) (by omega)]
    omega
  · have hcast : signed64 SIZE = -2 ^ 63 := by
      rw [show (SIZE : Int) = 2 ^ 63 by omega]
      decide
    rw [hcast]
    omega

/-- Between two multiples there is room for one more. -/
theorem add_le_of_dvd {SIZE : Nat} {x : Int} (hmin : (SIZE : Int) ∣ INTPTR_MIN) (hdvd : (SIZE : Int) ∣ x)
    (h : x ≤ INTPTR_MAX) : x + SIZE ≤ 2 ^ 63 := by
  have hdvd' : (SIZE : Int) ∣ 2 ^ 63 - x := Int.dvd_sub (Int.dvd_neg.mp hmin) hdvd
  have := Int.le_of_dvd (by unfold INTPTR_MAX at h; omega) hdvd'
  omega

theorem spanMappings_ok {t : Tree τ ι} {SIZE i fuel : Nat} {s s' : Building} (hpos : 0 < SIZE)
    (hmin : (SIZE : Int) ∣ INTPTR_MIN) (hsize : SIZE < 2 ^ 63) (hs : InSpace SIZE s.base)
    (hfuel : (t.heap.alloc i).ub - s.base ≤ fuel) :
    spanMappings t SIZE i (fuel + 1) s = .ok s' ↔
      s.base + SIZE ≤ INTPTR_MAX ∧ (t.heap.alloc i).ub + SIZE ≤ 2 ^ 63 ∧ s' = coverSpan t SIZE i fuel s := by
  have hdvd := Int.dvd_add hs.dvd (Int.dvd_refl (SIZE : Int))
  have hroom : s.base + SIZE ≤ INTPTR_MAX → s.base + SIZE + SIZE ≤ 2 ^ 63 := add_le_of_dvd hmin hdvd
  have hstep : spanMappings t SIZE i (fuel + 1) s = .ok s' ↔ s.base + SIZE ≤ INTPTR_MAX ∧
      (if s.base + SIZE < (t.heap.alloc i).ub then
        spanMappings t SIZE i fuel (startMapping t SIZE i s (s.base + SIZE)) else .ok s) = .ok s' := by
    rw [spanMappings, bind_ok]
    constructor
    · rintro ⟨base, hbase, h⟩
      obtain ⟨rfl, -, hle⟩ := (nextBase_ok hmin hs).mp hbase
      exact ⟨hle, h⟩
    · rintro ⟨hle, h⟩
      exact ⟨_, (nextBase_ok hmin hs).mpr ⟨rfl, hsize, hle⟩, h⟩
  rw [hstep]
  by_cases hspan : s.base + SIZE < (t.heap.alloc i).ub
  · rw [if_pos hspan]
    cases fuel with
    | zero => omega
    | succ fuel =>
        have hnext : InSpace SIZE (startMapping t SIZE i s (s.base + SIZE)).base :=
          ⟨hdvd, Int.le_trans hs.lower (Int.le_add_of_nonneg_right (Int.natCast_nonneg SIZE)), Or.inl hsize⟩
        rw [spanMappings_ok hpos hmin hsize hnext (by simp only [startMapping]; omega), coverSpan, if_pos hspan]
        simp only [startMapping]
        constructor
        · rintro ⟨hle, -, hub, rfl⟩
          exact ⟨hle, hub, rfl⟩
        · rintro ⟨hle, hub, rfl⟩
          exact ⟨hle, by unfold INTPTR_MAX; omega, hub, rfl⟩
  · rw [if_neg hspan, Except.ok.injEq]
    have hstop : coverSpan t SIZE i fuel s = s := by
      cases fuel with
      | zero => rfl
      | succ fuel => rw [coverSpan, if_neg hspan]
    rw [hstop]
    constructor
    · rintro ⟨hle, rfl⟩
      have := hroom hle
      exact ⟨hle, by omega, rfl⟩
    · rintro ⟨hle, -, rfl⟩
      exact ⟨hle, rfl⟩

theorem coverSpan_inSpace (t : Tree τ ι) {SIZE : Nat} (i fuel : Nat) {s : Building} (hsize : SIZE < 2 ^ 63)
    (hs : InSpace SIZE s.base) (hroom : s.base + SIZE ≤ INTPTR_MAX) (hub : (t.heap.alloc i).ub + SIZE ≤ 2 ^ 63) :
    InSpace SIZE (coverSpan t SIZE i fuel s).base ∧ (coverSpan t SIZE i fuel s).base + SIZE ≤ INTPTR_MAX := by
  induction fuel generalizing s with
  | zero => exact ⟨hs, hroom⟩
  | succ fuel ih =>
      rw [coverSpan]
      split_ifs with hspan
      · refine ih ⟨Int.dvd_add hs.dvd (Int.dvd_refl _),
          Int.le_trans hs.lower (Int.le_add_of_nonneg_right (Int.natCast_nonneg SIZE)), Or.inl hsize⟩ ?_
        show s.base + SIZE + SIZE ≤ INTPTR_MAX
        unfold INTPTR_MAX
        omega
      · exact ⟨hs, hroom⟩

/-- The block of an address is in the address space with it. -/
theorem block_inSpace {SIZE : Nat} {base lb : Int} (hpos : 0 < SIZE) (hsize : SIZE < 2 ^ 63) (hs : InSpace SIZE base)
    (hlb : lb ≥ base + SIZE) : InSpace SIZE (lb - lb % SIZE) := by
  have hmod := Int.emod_lt_of_pos lb (show (0 : Int) < SIZE by omega)
  have hlower := hs.lower
  exact ⟨Int.dvd_self_sub_of_emod_eq rfl, by omega, Or.inl hsize⟩

theorem buildStep_ok {t : Tree τ ι} {SIZE i : Nat} {s s' : Building} (hpos : 0 < SIZE)
    (hmin : (SIZE : Int) ∣ INTPTR_MIN) (hs : InSpace SIZE s.base)
    (hroom : s.base = INTPTR_MIN ∨ s.base + SIZE ≤ INTPTR_MAX) :
    buildStep t SIZE s i = .ok s' ↔ MappingsFit t SIZE i ∧ s' = coverStep t SIZE s i := by
  unfold buildStep coverStep MappingsFit
  dsimp only
  cases hT : (t.heap.alloc i).T with
  | none => simp [eq_comm]
  | some T =>
      simp only [Option.isNone_some, Option.isSome_some, Bool.false_eq_true, if_false, forall_const]
      rw [bind_ok]
      have hnext : ∀ base, nextBase SIZE s = .ok base ↔ _ := fun base => nextBase_ok hmin hs
      by_cases hlb : (t.heap.alloc i).lb ≥ s.base + SIZE
      · rw [if_pos hlb]
        have hmod := Int.emod_nonneg (t.heap.alloc i).lb (show (SIZE : Int) ≠ 0 by omega)
        have hmod' := Int.emod_lt_of_pos (t.heap.alloc i).lb (show (0 : Int) < SIZE by omega)
        constructor
        · rintro ⟨base, hbase, h⟩
          obtain ⟨rfl, hsize, -⟩ := (hnext base).mp hbase
          rw [if_pos hlb] at h
          have hblock := block_inSpace hpos hsize hs hlb
          obtain ⟨hfit, hub, rfl⟩ := (spanMappings_ok hpos hmin hsize (show InSpace SIZE (startMapping ..).base from hblock)
            (Int.self_le_toNat _)).mp h
          have := add_le_of_dvd hmin (Int.dvd_add hblock.dvd (Int.dvd_refl (SIZE : Int))) hfit
          exact ⟨⟨hsize, by unfold INTPTR_MAX; omega, hub⟩, rfl⟩
        · rintro ⟨⟨hsize, hfit, hub⟩, rfl⟩
          refine ⟨_, (hnext _).mpr ⟨rfl, hsize, by omega⟩, ?_⟩
          rw [if_pos hlb]
          have hblock := block_inSpace hpos hsize hs hlb
          refine (spanMappings_ok hpos hmin hsize (show InSpace SIZE (startMapping ..).base from hblock)
            (Int.self_le_toNat _)).mpr ⟨?_, hub, rfl⟩
          show (t.heap.alloc i).lb - (t.heap.alloc i).lb % SIZE + SIZE ≤ INTPTR_MAX
          omega
      · rw [if_neg hlb]
        constructor
        · rintro ⟨base, hbase, h⟩
          obtain ⟨rfl, hsize, hfit⟩ := (hnext base).mp hbase
          rw [if_neg hlb] at h
          obtain ⟨-, hub, rfl⟩ := (spanMappings_ok hpos hmin hsize hs (Int.self_le_toNat _)).mp h
          have := add_le_of_dvd hmin (Int.dvd_add hs.dvd (Int.dvd_refl (SIZE : Int))) hfit
          exact ⟨⟨hsize, by unfold INTPTR_MAX; omega, hub⟩, rfl⟩
        · rintro ⟨⟨hsize, -, hub⟩, rfl⟩
          have hfit : s.base + SIZE ≤ INTPTR_MAX := by
            unfold INTPTR_MIN INTPTR_MAX at *
            omega
          refine ⟨_, (hnext _).mpr ⟨rfl, hsize, hfit⟩, ?_⟩
          rw [if_neg hlb]
          exact (spanMappings_ok hpos hmin hsize hs (Int.self_le_toNat _)).mpr ⟨hfit, hub, rfl⟩

theorem coverStep_inSpace {t : Tree τ ι} {SIZE i : Nat} {s : Building} (hpos : 0 < SIZE) (hs : InSpace SIZE s.base)
    (hroom : s.base = INTPTR_MIN ∨ s.base + SIZE ≤ INTPTR_MAX) (hfit : MappingsFit t SIZE i) :
    InSpace SIZE (coverStep t SIZE s i).base ∧
      ((coverStep t SIZE s i).base = INTPTR_MIN ∨ (coverStep t SIZE s i).base + SIZE ≤ INTPTR_MAX) := by
  unfold coverStep
  dsimp only
  by_cases hnone : (t.heap.alloc i).T.isNone = true
  · rw [if_pos hnone]
    exact ⟨hs, hroom⟩
  rw [if_neg hnone]
  obtain ⟨hsize, hlb, hub⟩ := hfit (by simpa [Option.isSome_iff_ne_none] using hnone)
  have hmod := Int.emod_nonneg (t.heap.alloc i).lb (show (SIZE : Int) ≠ 0 by omega)
  split_ifs with hnew
  · obtain ⟨h1, h2⟩ := coverSpan_inSpace t i _ hsize
      (show InSpace SIZE (startMapping t SIZE i s ((t.heap.alloc i).lb - (t.heap.alloc i).lb % SIZE)).base from
        block_inSpace hpos hsize hs hnew)
      (show (t.heap.alloc i).lb - (t.heap.alloc i).lb % SIZE + SIZE ≤ INTPTR_MAX by omega) hub
    exact ⟨h1, Or.inr h2⟩
  · have hroom : s.base + SIZE ≤ INTPTR_MAX := by
      unfold INTPTR_MIN INTPTR_MAX at *
      omega
    obtain ⟨h1, h2⟩ := coverSpan_inSpace t i _ hsize hs hroom hub
    exact ⟨h1, Or.inr h2⟩

/-- The mappings are built, without an overflow, just when those of every trampoline fit. -/
theorem buildMappings_ok {t : Tree τ ι} {s : Shape Nat} (hl : Linked t s) {SIZE : Nat} (hpos : 0 < SIZE)
    (hmin : (SIZE : Int) ∣ INTPTR_MIN) (ms : List Mapping) :
    buildMappings t SIZE = .ok ms ↔ (∀ n ∈ s.inorder, MappingsFit t SIZE n) ∧ ms = coverMappings t SIZE := by
  have hrun : ∀ (rest : List Nat) (b b' : Building), InSpace SIZE b.base →
      (b.base = INTPTR_MIN ∨ b.base + SIZE ≤ INTPTR_MAX) →
      (rest.foldlM (buildStep t SIZE) b = .ok b' ↔
        (∀ n ∈ rest, MappingsFit t SIZE n) ∧ b' = rest.foldl (coverStep t SIZE) b) := by
    intro rest
    induction rest with
    | nil =>
        intro b b' _ _
        simp only [List.foldlM_nil, List.foldl_nil, List.not_mem_nil, false_imp_iff, implies_true, true_and]
        exact ⟨fun h => (Except.ok.inj h).symm, fun h => h ▸ rfl⟩
    | cons i rest ih =>
        intro b b' hs hroom
        rw [List.foldlM_cons, bind_ok, List.foldl_cons, List.forall_mem_cons]
        constructor
        · rintro ⟨c, hc, h⟩
          obtain ⟨hfit, rfl⟩ := (buildStep_ok hpos hmin hs hroom).mp hc
          obtain ⟨hs', hroom'⟩ := coverStep_inSpace hpos hs hroom hfit
          obtain ⟨hrest, rfl⟩ := (ih _ _ hs' hroom').mp h
          exact ⟨⟨hfit, hrest⟩, rfl⟩
        · rintro ⟨⟨hfit, hrest⟩, rfl⟩
          obtain ⟨hs', hroom'⟩ := coverStep_inSpace hpos hs hroom hfit
          exact ⟨_, (buildStep_ok hpos hmin hs hroom).mpr ⟨hfit, rfl⟩, (ih _ _ hs' hroom').mpr ⟨hrest, rfl⟩⟩
  have hstart := fun b' => hrun s.inorder ⟨INTPTR_MIN, none, []⟩ b' ⟨hmin, Int.le_refl _, Or.inr rfl⟩ (Or.inl rfl)
  unfold buildMappings coverMappings
  rw [visit_eq hl, bind_ok]
  constructor
  · rintro ⟨b, hb, h⟩
    obtain ⟨hfit, rfl⟩ := (hstart b).mp hb
    exact ⟨hfit, (Except.ok.inj h).symm⟩
  · rintro ⟨hfit, rfl⟩
    exact ⟨_, (hstart _).mpr ⟨hfit, rfl⟩, rfl⟩

/-- A mapping that is built ends in the address space. -/
theorem buildMappings_fits {t : Tree τ ι} {s : Shape Nat} (hl : Linked t s) {SIZE : Nat} (hpos : 0 < SIZE)
    (hmin : (SIZE : Int) ∣ INTPTR_MIN) {ms : List Mapping} (h : buildMappings t SIZE = .ok ms) :
    ∀ m ∈ ms, m.base + SIZE ≤ INTPTR_MAX := by
  obtain ⟨hfit, rfl⟩ := (buildMappings_ok hl hpos hmin _).mp h
  intro m hm
  have hc := ((coverMappings_spec hl hpos hmin).1 m hm).1
  obtain ⟨as, bs, hsplit, -⟩ := hc.split
  obtain ⟨hsize, hlb, hub⟩ := hfit m.i (by rw [hsplit]; simp) hc.used
  rcases Int.lt_or_le (t.heap.alloc m.i).lb m.base with hlt | hge
  · have := hc.lower hlt
    unfold INTPTR_MAX
    omega
  · omega

/-! ### Shrinking -/

/-- No byte offset is occupied by two of the mappings. -/
def Separate (t : Tree τ ι) (live : List Nat) (chain : List Mapping) : Prop :=
  chain.Pairwise fun m m' => ∀ o, ¬(OffsetOccupied t live m o ∧ OffsetOccupied t live m' o)

theorem chainBounds_spec {SIZE : Int} (h0 : 0 ≤ SIZE) {chain : List Mapping}
    (h : ∀ m ∈ chain, 0 ≤ m.lb ∧ m.ub ≤ SIZE) :
    0 ≤ (chainBounds chain).1 ∧ (chainBounds chain).2 ≤ SIZE := by
  have hfold : ∀ (chain : List Mapping) (b : Int × Int), (∀ m ∈ chain, 0 ≤ m.lb ∧ m.ub ≤ SIZE) → 0 ≤ b.1 → b.2 ≤ SIZE →
      0 ≤ (chain.foldl (fun b m => (min b.1 m.lb, max b.2 m.ub)) b).1 ∧
        (chain.foldl (fun b m => (min b.1 m.lb, max b.2 m.ub)) b).2 ≤ SIZE := by
    intro chain
    induction chain with
    | nil => exact fun b _ h1 h2 => ⟨h1, h2⟩
    | cons m chain ih =>
        intro b hm h1 h2
        obtain ⟨h3, h4⟩ := hm m List.mem_cons_self
        exact ih _ (fun m' hm' => hm m' (List.mem_cons_of_mem _ hm')) (Int.le_min.mpr ⟨h1, h3⟩) (Int.max_le.mpr ⟨h2, h4⟩)
  refine hfold chain _ h (by decide) ?_
  show INTPTR_MIN ≤ SIZE
  unfold INTPTR_MIN
  omega

/-- Shrinking moves all mappings of a chain alike, so that they stay apart. -/
theorem shrinkMapping_separate {t : Tree τ ι} {live : List Nat} {SIZE granularity : Nat} (hpos : 0 < granularity)
    (hdvd : granularity ∣ SIZE) {chain : List Mapping}
    (hchain : ∀ m ∈ chain, m.size = SIZE ∧ 0 ≤ m.lb ∧ m.ub ≤ SIZE) (h : Separate t live chain) :
    Separate t live (shrinkMapping granularity chain) := by
  cases chain with
  | nil => exact .nil
  | cons mapping0 rest =>
      unfold shrinkMapping
      dsimp only
      have hsize := (hchain mapping0 List.mem_cons_self).1
      obtain ⟨h0, h1⟩ := chainBounds_spec (Int.natCast_nonneg SIZE) fun m hm => (hchain m hm).2
      generalize chainBounds (mapping0 :: rest) = b at h0 h1
      by_cases hsame : mapping0.size = granularity
      · rw [if_pos hsame]
        exact h
      rw [if_neg hsame]
      have hpos' : (0 : Int) < granularity := by omega
      have hlb : 0 ≤ b.1 - b.1 % granularity := by
        have hquot := Int.mul_nonneg (Int.le_of_lt hpos') (Int.ediv_nonneg h0 (Int.le_of_lt hpos'))
        rw [Int.emod_def]
        omega
      generalize b.1 - b.1 % granularity = lb at hlb
      have hub : (if b.2 % granularity ≠ 0 then b.2 + granularity - (b.2 + granularity) % granularity else b.2) ≤ SIZE := by
        by_cases hround : b.2 % granularity ≠ 0
        · rw [if_pos hround, Int.emod_def, Int.add_ediv_of_dvd_right (Int.dvd_refl _), Int.ediv_self (by omega)]
          obtain ⟨k, rfl⟩ := hdvd
          have hlt : b.2 < k * granularity := by
            rcases Int.lt_or_le b.2 (k * granularity) with hlt | hle
            · exact hlt
            · exfalso
              have heq : b.2 = k * granularity := by
                rw [Int.natCast_mul, Int.mul_comm] at h1
                omega
              exact hround (by rw [heq, Int.mul_emod_left])
          have hquot : b.2 / granularity + 1 ≤ k := Int.ediv_lt_of_lt_mul hpos' hlt
          have hmul := Int.mul_le_mul_of_nonneg_left hquot (Int.le_of_lt hpos')
          rw [Int.natCast_mul]
          omega
        · rw [if_neg hround]
          exact h1
      generalize (if b.2 % granularity ≠ 0 then b.2 + granularity - (b.2 + granularity) % granularity else b.2) = ub at hub
      by_cases hbig : ub - lb ≥ mapping0.size
      · rw [if_pos hbig]
        exact h
      · rw [if_neg hbig]
        refine List.pairwise_map.mpr (h.imp_of_mem fun {m m'} hm hm' hsep o ho => ?_)
        have hmove : ∀ m ∈ mapping0 :: rest, OffsetOccupied t live
            { m with base := m.base + lb, size := (ub - lb).toNat, lb := m.lb - lb, ub := m.ub - lb } o →
            OffsetOccupied t live m (o + lb) := by
          rintro m hm ⟨ho0, ho1, n, hn, hT, hlo, hhi⟩
          have hm := (hchain m hm).1
          refine ⟨by omega, ?_, n, hn, hT, ?_, ?_⟩
          · have : o < ((ub - lb).toNat : Int) := ho1
            omega
          · have : (t.heap.alloc n).lb ≤ m.base + lb + o := hlo
            omega
          · have : m.base + lb + o < (t.heap.alloc n).ub := hhi
            omega
        exact hsep (o + lb) ⟨hmove m hm ho.1, hmove m' hm' ho.2⟩

/-! ### Grouping -/

/-- Chains that hold every mapping once, with no offset occupied twice, also after they were shrunk. -/
structure Grouped (t : Tree τ ι) (live : List Nat) (granularity : Nat) (ms : List Mapping)
    (chains : List (List Mapping)) : Prop where
  perm : chains.flatten.Perm ms
  once : chains.flatten.Nodup
  separate : ∀ chain ∈ chains, Separate t live chain
  shrunk : ∀ chain ∈ chains, Separate t live (shrinkMapping granularity chain)

theorem optimizeMappings_spec {t : Tree τ ι} {s : Shape Nat} (hl : Linked t s) {SIZE granularity : Nat} (hw : 0 < w)
    (hdvd : w ∣ SIZE) (hpos : 0 < SIZE) (hgpos : 0 < granularity) (hg : granularity ∣ SIZE)
    (hmin : (SIZE : Int) ∣ INTPTR_MIN) (hne : ∀ m ∈ coverMappings t SIZE, ¬Keyless debug w t m) :
    ∃ chains, optimizeMappings debug w t SIZE granularity (coverMappings t SIZE) =
        .ok (chains.map (shrinkMapping granularity)) ∧
      Grouped t s.inorder granularity (coverMappings t SIZE) chains := by
  obtain ⟨hcovers, hascending⟩ := coverMappings_spec hl hpos hmin
  have hkey : ∀ m ∈ coverMappings t SIZE, ∃ key : BitVec w, calculateKey debug t SIZE m = .ok key ∧
      ∀ o : Nat, OffsetOccupied t s.inorder m o → key.getLsbD (o / (SIZE / w)) = true := fun m hm =>
    calculateKey_spec hl hw hdvd hpos (hcovers m hm).1 (hne m hm)
  generalize coverMappings t SIZE = ms at hcovers hascending hkey hne
  let keyOf : Mapping → BitVec w := fun m => ((calculateKey debug t SIZE m).toOption).getD 0
  have hkeyOf : ∀ m ∈ ms, calculateKey debug t SIZE m = .ok (keyOf m) ∧
      ∀ o : Nat, OffsetOccupied t s.inorder m o → (keyOf m).getLsbD (o / (SIZE / w)) = true := by
    intro m hm
    obtain ⟨key, hrun, hbits⟩ := hkey m hm
    have heq : keyOf m = key := by
      show ((calculateKey debug t SIZE m).toOption).getD 0 = key
      rw [hrun]
      rfl
    rw [heq]
    exact ⟨hrun, hbits⟩
  obtain ⟨tree, hrun, hfits, hperm⟩ := mergeAll_spec (fun m hm => (hkeyOf m hm).1)
    (show (Node.null : Node w Mapping).Routed from trivial) (fun k hk => nomatch hk) (fun e he => nomatch he)
  have hchains : tree.collectMappings.flatten.Perm ms := by
    rw [Node.collectMappings_eq, ← List.flatMap_def]
    simpa [Node.entries] using hperm
  have hmem : ∀ chain ∈ tree.collectMappings, ∀ m ∈ chain, m ∈ ms := fun chain hc m hm =>
    hchains.mem_iff.mp (List.mem_flatten.mpr ⟨chain, hc, hm⟩)
  have hseparate : ∀ chain ∈ tree.collectMappings, Separate t s.inorder chain := by
    intro chain hc
    have hc' := hc
    rw [Node.collectMappings_eq] at hc'
    obtain ⟨e, he, rfl⟩ := List.mem_map.mp hc'
    refine (hfits e he).2.imp_of_mem fun {m m'} hm hm' hzero o ho => ?_
    obtain ⟨o, rfl⟩ := Int.eq_ofNat_of_zero_le ho.1.1
    exact and_eq_zero_iff.mp hzero _ ((hkeyOf m (hmem _ hc m hm)).2 o ho.1) ((hkeyOf m' (hmem _ hc m' hm')).2 o ho.2)
  refine ⟨tree.collectMappings, ?_, hchains, ?_, hseparate, fun chain hc => ?_⟩
  · unfold optimizeMappings
    rw [hrun]
    rfl
  · refine hchains.nodup_iff.mpr (hascending.imp fun {m m'} hlt heq => ?_)
    rw [heq] at hlt
    exact Int.lt_irrefl _ hlt
  · exact shrinkMapping_separate hgpos hg
      (fun m hm => ⟨(hcovers m (hmem chain hc m hm)).1.size, (hcovers m (hmem chain hc m hm)).2⟩) (hseparate chain hc)

/-- A mapping without a key stops the optimization. -/
theorem optimizeMappings_empty {t : Tree τ ι} {s : Shape Nat} (hl : Linked t s) {SIZE granularity : Nat} (hw : 0 < w)
    (hdvd : w ∣ SIZE) (hpos : 0 < SIZE) (hmin : (SIZE : Int) ∣ INTPTR_MIN) {m : Mapping}
    (hm : m ∈ coverMappings t SIZE) (hempty : Keyless debug w t m) (chains : List (List Mapping)) :
    optimizeMappings debug w t SIZE granularity (coverMappings t SIZE) ≠ .ok chains := by
  obtain ⟨hcovers, -⟩ := coverMappings_spec hl hpos hmin
  have hkey := calculateKey_empty hl hw hdvd hpos (hcovers m hm).1 hempty
  intro h
  obtain ⟨tree, hrun, -⟩ := bind_ok.mp h
  obtain ⟨as, bs, hsplit⟩ := List.append_of_mem hm
  rw [hsplit, List.foldlM_append, bind_ok] at hrun
  obtain ⟨tree₁, -, hrun⟩ := hrun
  rw [List.foldlM_cons, bind_ok] at hrun
  obtain ⟨tree₂, hstep, -⟩ := hrun
  obtain ⟨key, hk, -⟩ := bind_ok.mp hstep
  exact hkey key hk

/-- The sizes are powers of two, and no smaller than a page. -/
theorem mappingSize_spec (mode : Mode) (options : MemOptions) :
    ∃ g k, 12 ≤ g ∧ g ≤ k ∧ k ≤ 63 ∧ granularity mode = 2 ^ g ∧ mappingSize mode options = 2 ^ k := by
  obtain ⟨g, hg, hg', hgran⟩ : ∃ g, 12 ≤ g ∧ g ≤ 16 ∧ granularity mode = 2 ^ g := by
    unfold granularity
    split
    · exact ⟨16, by omega, by omega, rfl⟩
    · exact ⟨12, by omega, by omega, rfl⟩
  unfold mappingSize
  rw [hgran]
  by_cases hzero : options.option_mem_mapping_size = 0
  · rw [hzero, Nat.max_eq_left (Nat.zero_le _)]
    exact ⟨g, g, hg, Nat.le_refl g, by omega, rfl, rfl⟩
  · obtain ⟨j, hj⟩ := (Nat.and_sub_one_eq_zero_iff_isPowerOfTwo hzero).mp options.pow2
    have hj63 : j < 64 := by
      have hlt := options.size_t
      rw [hj] at hlt
      exact (Nat.pow_lt_pow_iff_right (by omega)).mp hlt
    rw [hj]
    rcases Nat.le_total g j with hle | hle
    · rw [Nat.max_eq_right (Nat.pow_le_pow_right (by omega) hle)]
      exact ⟨g, j, hg, hle, by omega, rfl, rfl⟩
    · rw [Nat.max_eq_left (Nat.pow_le_pow_right (by omega) hle)]
      exact ⟨g, g, hg, Nat.le_refl g, by omega, rfl, rfl⟩

theorem Grouped.of_perm {t : Tree τ ι} {live live' : List Nat} {g : Nat} {ms : List Mapping}
    {chains : List (List Mapping)} (h : Grouped t live g ms chains) (hperm : live.Perm live') :
    Grouped t live' g ms chains := by
  have hoccupied : OffsetOccupied t live' = OffsetOccupied t live := by
    funext m o
    simp only [OffsetOccupied, hperm.mem_iff]
  refine ⟨h.perm, h.once, fun chain hc => ?_, fun chain hc => ?_⟩
  · rw [Separate, hoccupied]
    exact h.separate chain hc
  · rw [Separate, hoccupied]
    exact h.shrunk chain hc

/-- **Page grouping.** For any state of the allocator that a run reaches without an overflow, all options that are
accepted and either build, mappings are built and the optimization returns chains that hold every mapping exactly once
and in which no offset is occupied by trampoline bytes of two mappings, if and only if the mappings of every
trampoline end in the address space and a key is computed for each of them. -/
theorem page_grouping (debug : Bool) {calls : List (Call τ ι)} (hnear : Session.new.NearRun calls) (mode : Mode)
    (options : MemOptions) :
    (∃ ms chains, buildMappings (Session.new.run calls).tree (mappingSize mode options) = .ok ms ∧
      emitMappings debug mode options (Session.new.run calls).tree =
        .ok (chains.map (shrinkMapping (granularity mode))) ∧
      Grouped (Session.new.run calls).tree (Session.new.run calls).live (granularity mode) ms chains) ↔
    (∀ n ∈ (Session.new.run calls).live, MappingsFit (Session.new.run calls).tree (mappingSize mode options) n) ∧
    ∀ m ∈ coverMappings (Session.new.run calls).tree (mappingSize mode options),
      ¬Keyless debug options.option_mem_granularity (Session.new.run calls).tree m := by
  have hok : (Session.new.run calls : Session τ ι).Ok := run_ok ⟨[], empty_balanced, .refl _⟩ hnear
  obtain ⟨ids, ⟨s, hv, -, rfl⟩, hperm⟩ := hok
  obtain ⟨g, k, hg, hgk, hk, hgran, hsize⟩ := mappingSize_spec mode options
  have hw : 0 < options.option_mem_granularity ∧ options.option_mem_granularity ∣ mappingSize mode options := by
    rw [hsize]
    rcases options.granularity with h | h
    · rw [h]
      exact ⟨by omega, Nat.pow_dvd_pow 2 (show 7 ≤ k by omega)⟩
    · rw [h]
      exact ⟨by omega, Nat.pow_dvd_pow 2 (show 12 ≤ k by omega)⟩
  have hpos : 0 < mappingSize mode options := by
    rw [hsize]
    exact Nat.two_pow_pos k
  have hmin : (mappingSize mode options : Int) ∣ INTPTR_MIN := by
    rw [hsize]
    refine (Int.dvd_neg).mpr ?_
    exact_mod_cast Nat.pow_dvd_pow 2 hk
  have hbuild := buildMappings_ok hv.toLinked hpos hmin
  constructor
  · rintro ⟨ms, chains, hms, hrun, -⟩
    obtain ⟨hfit, rfl⟩ := (hbuild ms).mp hms
    refine ⟨fun n hn => hfit n (hperm.mem_iff.mpr hn), fun m hm hempty => ?_⟩
    obtain ⟨ms, hms', hrun⟩ := bind_ok.mp hrun
    obtain rfl := Except.ok.inj (hms.symm.trans hms')
    exact optimizeMappings_empty hv.toLinked hw.1 hw.2 hpos hmin hm hempty _ hrun
  · rintro ⟨hfit, hne⟩
    have hgpos : 0 < granularity mode := by
      rw [hgran]
      exact Nat.two_pow_pos g
    have hgdvd : granularity mode ∣ mappingSize mode options := by
      rw [hgran, hsize]
      exact Nat.pow_dvd_pow 2 hgk
    have hms := (hbuild _).mpr ⟨fun n hn => hfit n (hperm.mem_iff.mp hn), rfl⟩
    obtain ⟨chains, hrun, hgrouped⟩ := optimizeMappings_spec hv.toLinked hw.1 hw.2 hpos hgpos hgdvd hmin hne
    exact ⟨_, chains, hms, bind_ok.mpr ⟨_, hms, hrun⟩, hgrouped.of_perm hperm⟩

/-- The options when none is given. -/
def MemOptions.default : MemOptions := ⟨PAGE_SIZE, 128, by decide, by decide, by decide, Or.inl rfl⟩

/-- Two trampolines in one page, and one with the rest of the next page. -/
def groupedCalls : List (Call Nat Nat) :=
  [.allocate false 0x400000 0x400100 5 0x80 (some 0) none true, .allocate false 0x401000 0x402000 5 0xfff (some 1) none true,
    .reserve 0x402000 0x403000, .allocate false 0x400800 0x400900 5 0x80 (some 2) none true]

/-- Their mappings are grouped in a build with assertions. -/
theorem groupedCalls_chains :
    ∃ ms chains, buildMappings (Session.new.run groupedCalls).tree (mappingSize .ELF_EXE .default) = .ok ms ∧
      emitMappings true .ELF_EXE .default (Session.new.run groupedCalls).tree =
        .ok (chains.map (shrinkMapping (granularity .ELF_EXE))) ∧
      Grouped (Session.new.run groupedCalls).tree (Session.new.run groupedCalls).live (granularity .ELF_EXE) ms chains :=
  (page_grouping true (by decide +kernel) .ELF_EXE .default).mpr (by decide +kernel)

/-- `--mem-mapping-size=2305843009213693952`. -/
def MemOptions.wide : MemOptions := ⟨2 ^ 61, 128, by decide, by decide, by decide, Or.inl rfl⟩

/-- A position-independent file without instructions, and a reservation of a byte at an absolute address. -/
def absoluteReservation : Except Fault Binary := do
  let B ← parseBinary ⟨0, fun _ => 0, true, [], 0⟩ .ELF_DSO defaultOptions none
  parseReserve B [true] [0x400000] [⟨0, [.BYTES [0x90]]⟩] []

/-- In neither build are there mappings of 2^61 bytes for it: the first would end at 2^63. -/
theorem absolute_reservation : ∃ B, absoluteReservation = .ok B ∧
    ∀ debug, ¬∃ ms chains, buildMappings B.allocator (mappingSize .ELF_DSO .wide) = .ok ms ∧
      emitMappings debug .ELF_DSO .wide B.allocator = .ok chains := by
  have hrun : (absoluteReservation.toOption.map fun B =>
      (buildMappings B.allocator (mappingSize .ELF_DSO .wide)).toOption.isNone) = some true := by
    decide +kernel
  cases hB : absoluteReservation with
  | error e =>
      rw [hB] at hrun
      cases hrun
  | ok B =>
      rw [hB] at hrun
      refine ⟨B, rfl, ?_⟩
      rintro debug ⟨ms, chains, hms, -⟩
      have hnone : (buildMappings B.allocator (mappingSize .ELF_DSO .wide)).toOption.isNone = true :=
        Option.some.inj hrun
      rw [hms] at hnone
      cases hnone

end E9Patch
