import E9Patch.CFGModel
import E9Patch.Numerals

/-!
Basic blocks and functions of `e9cfg.cpp` as ranges of indices. Both start at targets of some kind and go on as
long as each instruction continues into the next one; what stops a range before an instruction is in particular
that the next range starts there. So the ranges are disjoint, and an index is found by halving.
-/

namespace E9Tool
open Numerals (ascii)

/-! ### Instructions by their addresses -/

/-- In ascending order of the addresses, which are unsigned. -/
structure Ascending (Is : List Instr) : Prop where
  sorted : Is.Pairwise fun I J => I.address < J.address
  nonneg : ∀ I ∈ Is, 0 ≤ I.address

variable {elf : ELF} {Is : List Instr} {targets : Targets}

theorem Ascending.divides (h : Ascending Is) (address : Int) : BinarySearch.Divides (Instr.side address) Is :=
  BinarySearch.divides_side h.sorted (fun _ _ => le_rfl) address

theorem instr_side_eq_eq {address : Int} {I : Instr} : I.side address = .eq ↔ I.address = address := by
  rw [Instr.side, BinarySearch.side_eq_eq]
  exact ⟨fun h => le_antisymm h.1 h.2, fun h => ⟨h.le, h.ge⟩⟩

/-- Positions of an ascending array are told apart by the addresses. -/
theorem Ascending.index_unique (h : Ascending Is) {i j : Nat} {I J : Instr} (hi : Is[i]? = some I)
    (hj : Is[j]? = some J) (haddr : I.address = J.address) : i = j := by
  obtain ⟨hi', rfl⟩ := List.getElem?_eq_some_iff.mp hi
  obtain ⟨hj', rfl⟩ := List.getElem?_eq_some_iff.mp hj
  have hpair := List.pairwise_iff_getElem.mp h.sorted
  by_contra hne
  rcases Nat.lt_or_gt_of_ne hne with hlt | hlt
  · exact absurd haddr (hpair i j hi' hj' hlt).ne
  · exact absurd haddr (hpair j i hj' hi' hlt).ne'

theorem findInstr_some {address : Int} {i : Nat} (h : findInstr Is address = some i) :
    ∃ I, Is[i]? = some I ∧ I.address = address := by
  rw [findInstr] at h
  cases hs : BinarySearch.searchList (Instr.side address) Is with
  | missing k =>
      rw [hs] at h
      cases h
  | found k =>
      rw [hs] at h
      obtain rfl := Option.some.inj h
      obtain ⟨I, hI, heq⟩ := BinarySearch.searchList_found hs
      exact ⟨I, hI, instr_side_eq_eq.mp heq⟩

theorem Ascending.findInstr_iff (h : Ascending Is) {address : Int} {i : Nat} :
    findInstr Is address = some i ↔ ∃ I, Is[i]? = some I ∧ I.address = address := by
  refine ⟨findInstr_some, fun ⟨I, hI, haddr⟩ => ?_⟩
  cases hs : BinarySearch.searchList (Instr.side address) Is with
  | missing k =>
      exact absurd (instr_side_eq_eq.mpr haddr)
        (BinarySearch.searchList_none (h.divides address) hs I (List.mem_of_getElem? hI))
  | found k =>
      obtain ⟨J, hJ, heq⟩ := BinarySearch.searchList_found hs
      rw [findInstr, hs, BinarySearch.Result.index,
        h.index_unique hI hJ (haddr.trans (instr_side_eq_eq.mp heq).symm)]

/-! ### Ranges -/

/-- The instruction at `k` continues into the next one. -/
def Continues (Is : List Instr) (goes : Instr → Instr → Prop) (k : Nat) : Prop :=
  ∃ I J, Is[k]? = some I ∧ Is[k + 1]? = some J ∧ goes I J

/-- From `lb` on all instructions up to `ub` continue, and that one does not. -/
structure Extends (Is : List Instr) (goes : Instr → Instr → Prop) (lb ub : Nat) : Prop where
  le : lb ≤ ub
  lt : ub < Is.length
  continues : ∀ k, lb ≤ k → k < ub → Continues Is goes k
  ends : ¬Continues Is goes ub

/-- A range ends at its first instruction. -/
theorem Extends.stop {goes : Instr → Instr → Prop} {i : Nat} (hi : i < Is.length) (h : ¬Continues Is goes i) :
    Extends Is goes i i := ⟨le_rfl, hi, fun k h1 h2 => by omega, h⟩

/-- A range that starts with the next instruction is extended by one that continues. -/
theorem Extends.step {goes : Instr → Instr → Prop} {i ub : Nat} (h : Continues Is goes i)
    (hext : Extends Is goes (i + 1) ub) : Extends Is goes i ub := by
  refine ⟨Nat.le_of_succ_le hext.le, hext.lt, fun k h1 h2 => ?_, hext.ends⟩
  rcases Nat.eq_or_lt_of_le h1 with rfl | h1
  · exact h
  · exact hext.continues k h1 h2

/-- What an instruction of the range continues into is in the range. -/
theorem Extends.covers {goes : Instr → Instr → Prop} {lb ub i : Nat} (hext : Extends Is goes lb ub) (h2 : i ≤ ub)
    (hi : Continues Is goes i) : i + 1 ≤ ub := by
  rcases Nat.lt_or_ge i ub with h | h
  · exact h
  · obtain rfl : i = ub := le_antisymm h2 h
    exact absurd hi hext.ends

/-- The instruction before a start does not continue; so ranges from different starts are disjoint. -/
theorem Extends.disjoint {goes : Instr → Instr → Prop} {starts : Instr → Prop}
    (hgoes : ∀ I J, goes I J → ¬starts J) {a b ub : Nat} (hext : Extends Is goes a ub) (hab : a < b)
    (hb : ∃ J, Is[b]? = some J ∧ starts J) : ub < b := by
  by_contra hle
  obtain ⟨J, hJ, hstart⟩ := hb
  obtain ⟨I, J', -, hJ', hcont⟩ := hext.continues (b - 1) (by omega) (by omega)
  rw [Nat.sub_add_cancel (by omega)] at hJ'
  rw [hJ] at hJ'
  obtain rfl := Option.some.inj hJ'
  exact hgoes I J hcont hstart

theorem getElem?_of_drop {i : Nat} {I : Instr} {rest : List Instr} (h : Is.drop i = I :: rest) : Is[i]? = some I := by
  rw [← List.head?_drop, h]
  rfl

theorem drop_succ {i : Nat} {I : Instr} {rest : List Instr} (h : Is.drop i = I :: rest) : Is.drop (i + 1) = rest := by
  have hstep : Is.drop (i + 1) = (Is.drop i).drop 1 := List.drop_drop.symm
  rw [hstep, h]
  rfl

theorem continues_iff {goes : Instr → Instr → Prop} {i : Nat} {I J : Instr} {rest : List Instr}
    (h : Is.drop i = I :: J :: rest) : Continues Is goes i ↔ goes I J := by
  have hI := getElem?_of_drop h
  have hJ := getElem?_of_drop (drop_succ h)
  constructor
  · rintro ⟨I', J', hI', hJ', hgoes⟩
    obtain rfl := Option.some.inj (hI.symm.trans hI')
    obtain rfl := Option.some.inj (hJ.symm.trans hJ')
    exact hgoes
  · exact fun hgoes => ⟨I, J, hI, hJ, hgoes⟩

theorem not_continues_last {goes : Instr → Instr → Prop} {i : Nat} {I : Instr} (h : Is.drop i = [I]) :
    ¬Continues Is goes i := by
  rintro ⟨-, J, -, hJ, -⟩
  have hnil := drop_succ h
  rw [← List.head?_drop, hnil] at hJ
  cases hJ

theorem lt_length_of_drop {i : Nat} {I : Instr} {rest : List Instr} (h : Is.drop i = I :: rest) : i < Is.length :=
  (List.getElem?_eq_some_iff.mp (getElem?_of_drop h)).1

theorem better_cases (Is : List Instr) (best ub : Nat) : better Is best ub = best ∨ better Is best ub = ub := by
  rw [better]
  split_ifs
  · exact Or.inr rfl
  · exact Or.inl rfl

/-! ### Basic blocks -/

/-- An instruction and the next one of the same block. -/
def SameBB (elf : ELF) (targets : Targets) (I J : Instr) : Prop :=
  isCFT (elf.getInstrInfo I).mnemonic = false ∧ I.address + I.size = J.address ∧
    OrderedMap.find targets J.address = none

theorem extendBB_spec (elf : ELF) (targets : Targets) {i lb best : Nat} {I : Instr} {rest : List Instr}
    (h : Is.drop i = I :: rest) (h1 : lb ≤ best) (h2 : best ≤ i) :
    Extends Is (SameBB elf targets) i (extendBB elf Is targets I i best rest).1 ∧
      lb ≤ (extendBB elf Is targets I i best rest).2 ∧
      (extendBB elf Is targets I i best rest).2 ≤ (extendBB elf Is targets I i best rest).1 := by
  induction rest generalizing I i best with
  | nil => exact ⟨.stop (lt_length_of_drop h) (not_continues_last h), h1, h2⟩
  | cons J rest ih =>
      have hlt := lt_length_of_drop h
      rw [extendBB]
      split_ifs with hcft hgap htarget
      · refine ⟨.stop hlt fun hgoes => ?_, h1, h2⟩
        rw [((continues_iff h).mp hgoes).1] at hcft
        cases hcft
      · exact ⟨.stop hlt fun hgoes => hgap ((continues_iff h).mp hgoes).2.1, h1, h2⟩
      · refine ⟨.stop hlt fun hgoes => ?_, h1, h2⟩
        rw [((continues_iff h).mp hgoes).2.2] at htarget
        cases htarget
      · have hnext : better Is best (i + 1) ≤ i + 1 ∧ lb ≤ better Is best (i + 1) := by
          rcases better_cases Is best (i + 1) with hb | hb <;> omega
        obtain ⟨g1, g2, g3⟩ := ih (drop_succ h) hnext.2 hnext.1
        refine ⟨.step ((continues_iff h).mpr ⟨?_, not_not.mp hgap, ?_⟩) g1, g2, g3⟩
        · exact Bool.eq_false_iff.mpr hcft
        · exact Option.not_isSome_iff_eq_none.mp htarget

theorem makeBB_some {target : Int} {bb : BB} (h : makeBB elf Is targets target = some bb) :
    (∃ I, Is[bb.lb]? = some I ∧ I.address = target) ∧ findInstr Is target = some bb.lb ∧
      Extends Is (SameBB elf targets) bb.lb bb.ub ∧ bb.lb ≤ bb.best ∧ bb.best ≤ bb.ub := by
  rw [makeBB] at h
  cases hi : findInstr Is target with
  | none =>
      rw [hi] at h
      cases h
  | some i =>
      rw [hi] at h
      dsimp only at h
      cases hd : Is.drop i with
      | nil =>
          rw [hd] at h
          cases h
      | cons I rest =>
          rw [hd] at h
          obtain rfl := Option.some.inj h
          obtain ⟨g1, g2, g3⟩ := extendBB_spec elf targets hd le_rfl le_rfl
          exact ⟨findInstr_some hi, rfl, g1, g2, g3⟩

theorem makeBB_total (elf : ELF) (targets : Targets) {target : Int} {i : Nat} (h : findInstr Is target = some i) :
    ∃ bb, makeBB elf Is targets target = some bb ∧ bb.lb = i := by
  obtain ⟨I, hI, -⟩ := findInstr_some h
  have hd : Is.drop i = I :: Is.drop (i + 1) := by
    obtain ⟨hlt, rfl⟩ := List.getElem?_eq_some_iff.mp hI
    exact List.drop_eq_getElem_cons hlt
  rw [makeBB, h]
  dsimp only
  rw [hd]
  exact ⟨_, rfl, rfl⟩

theorem makeBB_injective (target target' : Int) (bb bb' : BB) (h : makeBB elf Is targets target = some bb)
    (h' : makeBB elf Is targets target' = some bb') (hlb : bb.lb = bb'.lb) : bb = bb' := by
  obtain ⟨⟨I, hI, rfl⟩, -⟩ := makeBB_some h
  obtain ⟨⟨I', hI', rfl⟩, -⟩ := makeBB_some h'
  rw [← hlb, hI] at hI'
  obtain rfl := Option.some.inj hI'
  exact Option.some.inj (h.symm.trans h')

theorem collect_makeBB : OrderedMap.Sorted (OrderedMap.collect BB.lb (fun entry => makeBB elf Is targets entry.1) targets) ∧
    ∀ k bb, (k, bb) ∈ OrderedMap.collect BB.lb (fun entry => makeBB elf Is targets entry.1) targets ↔
      bb.lb = k ∧ ∃ entry ∈ targets, makeBB elf Is targets entry.1 = some bb :=
  OrderedMap.collect_spec fun _ _ _ _ bb bb' h h' => makeBB_injective _ _ bb bb' h h'

theorem mem_buildBBs {bb : BB} :
    bb ∈ buildBBs elf Is targets ↔ ∃ entry ∈ targets, makeBB elf Is targets entry.1 = some bb := by
  rw [buildBBs, List.mem_map]
  constructor
  · rintro ⟨⟨k, bb'⟩, h, rfl⟩
    exact ((collect_makeBB.2 k bb').mp h).2
  · exact fun h => ⟨(bb.lb, bb), (collect_makeBB.2 _ _).mpr ⟨rfl, h⟩, rfl⟩

theorem buildBBs_pairwise : (buildBBs elf Is targets).Pairwise fun a b => a.lb < b.lb := by
  rw [buildBBs, List.pairwise_map]
  refine collect_makeBB.1.imp_of_mem fun {a b} ha hb hab => ?_
  rw [((collect_makeBB.2 a.1 a.2).mp ha).1, ((collect_makeBB.2 b.1 b.2).mp hb).1]
  exact hab

/-- Straight-line flow from a target: into the next instruction, unless a transfer ends the block. -/
inductive StraightLine (elf : ELF) (Is : List Instr) (targets : Targets) : Nat → Prop where
  | target {i : Nat} {I : Instr} {kind : UInt8} (hI : Is[i]? = some I) (htarget : (I.address, kind) ∈ targets) :
      StraightLine elf Is targets i
  | next {i : Nat} {I J : Instr} (h : StraightLine elf Is targets i) (hI : Is[i]? = some I) (hJ : Is[i + 1]? = some J)
      (hcft : isCFT (elf.getInstrInfo I).mnemonic = false) (hnext : I.address + I.size = J.address) :
      StraightLine elf Is targets (i + 1)

/-- A partition of what it covers into basic blocks. -/
structure BBPartition (elf : ELF) (Is : List Instr) (targets : Targets) (bbs : List BB) : Prop where
  disjoint : bbs.Pairwise fun a b => a.ub < b.lb
  bounds : ∀ bb ∈ bbs, bb.lb ≤ bb.best ∧ bb.best ≤ bb.ub ∧ bb.ub < Is.length
  first : ∀ bb ∈ bbs, ∃ I kind, Is[bb.lb]? = some I ∧ (I.address, kind) ∈ targets
  others : ∀ bb ∈ bbs, ∀ k, bb.lb < k → k ≤ bb.ub → ∃ J, Is[k]? = some J ∧ ∀ entry ∈ targets, entry.1 ≠ J.address
  inner : ∀ bb ∈ bbs, ∀ k, bb.lb ≤ k → k < bb.ub → ∃ I J, Is[k]? = some I ∧ Is[k + 1]? = some J ∧
    I.address + I.size = J.address ∧ isCFT (elf.getInstrInfo I).mnemonic = false
  covers : ∀ i, StraightLine elf Is targets i → ∃ bb ∈ bbs, bb.lb ≤ i ∧ i ≤ bb.ub
  found : ∀ idx bb, findBB bbs idx = some bb ↔ bb ∈ bbs ∧ bb.lb ≤ idx ∧ idx ≤ bb.ub

/-- The search among ranges in order finds the one that has the index. -/
theorem searchList_ranges {α : Type} {lb ub : α → Nat} {as : List α} (hpair : as.Pairwise fun a b => ub a < lb b)
    (hle : ∀ a ∈ as, lb a ≤ ub a) (idx : Nat) (a : α) :
    ((BinarySearch.searchList (fun a => BinarySearch.side idx (lb a) (ub a)) as).index.bind fun mid => as[mid]?) =
      some a ↔ a ∈ as ∧ lb a ≤ idx ∧ idx ≤ ub a := by
  cases hs : BinarySearch.searchList (fun a => BinarySearch.side idx (lb a) (ub a)) as with
  | found mid =>
      obtain ⟨b, hb, heq⟩ := BinarySearch.searchList_found hs
      obtain ⟨h1, h2⟩ := BinarySearch.side_eq_eq.mp heq
      show as[mid]? = some a ↔ _
      rw [hb, Option.some.injEq]
      constructor
      · rintro rfl
        exact ⟨List.mem_of_getElem? hb, h1, h2⟩
      · rintro ⟨ha, h3, h4⟩
        by_contra hne
        let R : α → α → Prop := fun a b => ub a < lb b ∨ ub b < lb a
        have : Std.Symm R := ⟨fun _ _ => Or.symm⟩
        have hR : as.Pairwise R := hpair.imp Or.inl
        rcases hR.forall (List.mem_of_getElem? hb) ha hne with h | h <;> omega
  | missing k =>
      have hnone := BinarySearch.searchList_none (BinarySearch.divides_side hpair hle idx) hs
      constructor
      · intro h
        cases h
      · rintro ⟨ha, h⟩
        exact absurd (BinarySearch.side_eq_eq.mpr h) (hnone a ha)

/-- Code with a gap, of which one function has a symbol: two instructions that adjoin, a third one farther on. -/
def gapELF : ELF where
  pic := false
  ibt := false
  data := []
  dynsyms := []
  syms := [(ascii "f", ⟨E9Patch.STT_FUNC, 1, 0x1000⟩)]
  sections := []
  getInstrInfo I := if I.address = 0x1000 then ⟨.MOV, none⟩ else ⟨.RET, none⟩

def gapInstrs : List Instr :=
  [⟨0x1000, 3, 0, false, false, false⟩, ⟨0x1003, 1, 3, false, false, false⟩, ⟨0x1008, 1, 8, false, false, false⟩]

def gapTargets : Targets := [(0x1000, TARGET_FUNCTION), (0x1003, TARGET_FUNCTION)]

theorem gapInstrs_ascending : Ascending gapInstrs := ⟨by decide, by decide⟩

theorem gapTargets_sorted : OrderedMap.Sorted gapTargets := by
  unfold OrderedMap.Sorted
  decide

/-- An address that starts a function. -/
def StartsF (elf : ELF) (targets : Targets) (address : Int) : Prop :=
  ∃ kind, OrderedMap.find targets address = some kind ∧ isEntry elf address kind = true

/-- An instruction and the next one of the same function. -/
def SameF (elf : ELF) (targets : Targets) (I J : Instr) : Prop :=
  I.address + I.size = J.address ∧ ¬StartsF elf targets J.address

theorem startsF_iff {address : Int} :
    StartsF elf targets address ↔ (OrderedMap.find targets address).any (isEntry elf address) = true := by
  rw [StartsF, Option.any_eq_true]

theorem extendF_spec (elf : ELF) (targets : Targets) (found : Bool) {i lb best : Nat} {I : Instr} {rest : List Instr}
    (h : Is.drop i = I :: rest) (h1 : lb ≤ best) (h2 : best ≤ i) :
    Extends Is (SameF elf targets) i (extendF elf Is targets found I i best rest).1 ∧
      lb ≤ (extendF elf Is targets found I i best rest).2 ∧
      (extendF elf Is targets found I i best rest).2 ≤ (extendF elf Is targets found I i best rest).1 := by
  induction rest generalizing found I i best with
  | nil => exact ⟨.stop (lt_length_of_drop h) (not_continues_last h), h1, h2⟩
  | cons J rest ih =>
      have hlt := lt_length_of_drop h
      rw [extendF]
      split_ifs with hgap htarget hfound
      · exact ⟨.stop hlt fun hgoes => hgap ((continues_iff h).mp hgoes).1, h1, h2⟩
      · exact ⟨.stop hlt fun hgoes => ((continues_iff h).mp hgoes).2 (startsF_iff.mpr htarget), h1, h2⟩
      · obtain ⟨g1, g2, g3⟩ := ih true (drop_succ h) h1 (h2.trans (Nat.le_succ i))
        rw [hfound]
        exact ⟨.step ((continues_iff h).mpr ⟨not_not.mp hgap, fun hs => htarget (startsF_iff.mp hs)⟩) g1, g2, g3⟩
      · have hnext : better Is best (i + 1) ≤ i + 1 ∧ lb ≤ better Is best (i + 1) := by
          rcases better_cases Is best (i + 1) with hb | hb <;> omega
        obtain ⟨g1, g2, g3⟩ := ih (found || isCFT (elf.getInstrInfo I).mnemonic) (drop_succ h) hnext.2 hnext.1
        exact ⟨.step ((continues_iff h).mpr ⟨not_not.mp hgap, fun hs => htarget (startsF_iff.mp hs)⟩) g1, g2, g3⟩

theorem makeF_some {target : Int} {f : F} (h : makeF elf Is targets target = some f) :
    (∃ I, Is[f.lb]? = some I ∧ I.address = target) ∧ f.name = OrderedMap.find (functionNames elf) target ∧
      Extends Is (SameF elf targets) f.lb f.ub ∧ f.lb ≤ f.best ∧ f.best ≤ f.ub := by
  rw [makeF] at h
  cases hi : findInstr Is target with
  | none =>
      rw [hi] at h
      cases h
  | some i =>
      rw [hi] at h
      dsimp only at h
      cases hd : Is.drop i with
      | nil =>
          rw [hd] at h
          cases h
      | cons I rest =>
          rw [hd] at h
          obtain rfl := Option.some.inj h
          obtain ⟨I', hI', haddr⟩ := findInstr_some hi
          obtain rfl := Option.some.inj ((getElem?_of_drop hd).symm.trans hI')
          obtain ⟨g1, g2, g3⟩ := extendF_spec elf targets false hd le_rfl le_rfl
          exact ⟨⟨I, hI', haddr⟩, by rw [haddr], g1, g2, g3⟩

theorem makeF_total (elf : ELF) (targets : Targets) {target : Int} {i : Nat} (h : findInstr Is target = some i) :
    ∃ f, makeF elf Is targets target = some f ∧ f.lb = i := by
  obtain ⟨I, hI, -⟩ := findInstr_some h
  have hd : Is.drop i = I :: Is.drop (i + 1) := by
    obtain ⟨hlt, rfl⟩ := List.getElem?_eq_some_iff.mp hI
    exact List.drop_eq_getElem_cons hlt
  rw [makeF, h]
  dsimp only
  rw [hd]
  exact ⟨_, rfl, rfl⟩

theorem collect_makeF : OrderedMap.Sorted (OrderedMap.collect F.lb (fun entry =>
      if isEntry elf entry.1 entry.2 then makeF elf Is targets entry.1 else none) targets) ∧
    ∀ k f, (k, f) ∈ OrderedMap.collect F.lb (fun entry =>
      if isEntry elf entry.1 entry.2 then makeF elf Is targets entry.1 else none) targets ↔
      f.lb = k ∧ ∃ entry ∈ targets,
        (if isEntry elf entry.1 entry.2 then makeF elf Is targets entry.1 else none) = some f := by
  refine OrderedMap.collect_spec fun e _ e' _ f f' h h' hlb => ?_
  split_ifs at h h'
  obtain ⟨⟨I, hI, haddr⟩, -⟩ := makeF_some h
  obtain ⟨⟨I', hI', haddr'⟩, -⟩ := makeF_some h'
  rw [← hlb, hI] at hI'
  obtain rfl := Option.some.inj hI'
  rw [← haddr] at h
  rw [← haddr'] at h'
  exact Option.some.inj (h.symm.trans h')

theorem mem_buildFs {f : F} : f ∈ buildFs elf Is targets ↔
    ∃ entry ∈ targets, isEntry elf entry.1 entry.2 = true ∧ makeF elf Is targets entry.1 = some f := by
  have hmake : ∀ entry : Int × UInt8,
      (if isEntry elf entry.1 entry.2 then makeF elf Is targets entry.1 else none) = some f ↔
        isEntry elf entry.1 entry.2 = true ∧ makeF elf Is targets entry.1 = some f := by
    intro entry
    split_ifs with h <;> simp [h]
  simp only [← hmake]
  rw [buildFs, List.mem_map]
  constructor
  · rintro ⟨⟨k, f'⟩, h, rfl⟩
    exact ((collect_makeF.2 k f').mp h).2
  · exact fun h => ⟨(f.lb, f), (collect_makeF.2 _ _).mpr ⟨rfl, h⟩, rfl⟩

theorem buildFs_pairwise : (buildFs elf Is targets).Pairwise fun a b => a.lb < b.lb := by
  rw [buildFs, List.pairwise_map]
  refine collect_makeF.1.imp_of_mem fun {a b} ha hb hab => ?_
  rw [((collect_makeF.2 a.1 a.2).mp ha).1, ((collect_makeF.2 b.1 b.2).mp hb).1]
  exact hab

/-- The name of an address is that of the first function symbol there. -/
theorem find_functionNames (elf : ELF) (address : Int) : OrderedMap.find (functionNames elf) address =
    ((elf.dynsyms ++ elf.syms).find? fun entry => entry.2.isFunction ∧ entry.2.st_value = address).map Prod.fst := by
  rw [functionNames]
  have hrun : ∀ l : List (List UInt8 × E9Patch.Elf64_Sym),
      OrderedMap.Sorted (l.foldl (fun names entry =>
        if entry.2.isFunction then OrderedMap.insert names entry.2.st_value entry.1 else names) []) ∧
      OrderedMap.find (l.foldl (fun names entry =>
        if entry.2.isFunction then OrderedMap.insert names entry.2.st_value entry.1 else names) []) address =
          (l.find? fun entry => entry.2.isFunction ∧ entry.2.st_value = address).map Prod.fst := by
    intro l
    induction l using List.reverseRecOn with
    | nil => exact ⟨List.Pairwise.nil, rfl⟩
    | append_singleton l entry ih =>
        obtain ⟨h1, h2⟩ := ih
        rw [List.foldl_append, List.find?_append]
        simp only [List.foldl_cons, List.foldl_nil]
        by_cases hf : entry.2.isFunction = true
        · rw [if_pos hf]
          refine ⟨OrderedMap.sorted_insert h1 _ _, ?_⟩
          rw [OrderedMap.find_insert h1]
          by_cases haddr : address = entry.2.st_value
          · rw [if_pos haddr, ← haddr, h2]
            cases l.find? fun entry => entry.2.isFunction ∧ entry.2.st_value = address with
            | none => simp [hf, haddr]
            | some e => simp
          · rw [if_neg haddr, h2]
            simp [hf, Ne.symm haddr]
        · rw [if_neg hf, h2]
          exact ⟨h1, by simp [hf]⟩
  exact (hrun _).2

/-- A partition into functions: each goes from a start over instructions that adjoin up to the next start. -/
structure FPartition (elf : ELF) (Is : List Instr) (targets : Targets) (fs : List F) : Prop where
  disjoint : fs.Pairwise fun a b => a.ub < b.lb
  bounds : ∀ f ∈ fs, f.lb ≤ f.best ∧ f.best ≤ f.ub ∧ f.ub < Is.length
  first : ∀ f ∈ fs, ∃ I, Is[f.lb]? = some I ∧ StartsF elf targets I.address
  others : ∀ f ∈ fs, ∀ k, f.lb ≤ k → k < f.ub → ∃ I J, Is[k]? = some I ∧ Is[k + 1]? = some J ∧
    I.address + I.size = J.address ∧ ¬StartsF elf targets J.address
  last : ∀ f ∈ fs, ∀ I J, Is[f.ub]? = some I → Is[f.ub + 1]? = some J →
    I.address + I.size ≠ J.address ∨ StartsF elf targets J.address
  starts : ∀ i I, Is[i]? = some I → StartsF elf targets I.address → ∃ f ∈ fs, f.lb = i ∧ ∀ g ∈ fs, g.lb = i → g = f
  names : ∀ f ∈ fs, ∀ I, Is[f.lb]? = some I → f.name = ((elf.dynsyms ++ elf.syms).find? fun entry =>
    entry.2.isFunction ∧ entry.2.st_value = I.address).map Prod.fst
  found : ∀ idx f, findF fs idx = some f ↔ f ∈ fs ∧ f.lb ≤ idx ∧ idx ≤ f.ub

/-- A target that some analysis takes for a function. -/
def FunctionTarget (targets : Targets) (address : Int) : Prop :=
  ∃ kind, (address, kind) ∈ targets ∧ kind &&& TARGET_FUNCTION ≠ 0

/-- Each range goes on until the next function target, or else to the end of the array. -/
def UpToNext (Is : List Instr) (targets : Targets) (fs : List F) : Prop :=
  ∀ f ∈ fs, f.ub + 1 = Is.length ∨ ∃ J, Is[f.ub + 1]? = some J ∧ FunctionTarget targets J.address

/-- Each function target starts a range. -/
def EachStarts (Is : List Instr) (targets : Targets) (fs : List F) : Prop :=
  ∀ i I, Is[i]? = some I → FunctionTarget targets I.address → ∃ f ∈ fs, f.lb = i

end E9Tool
