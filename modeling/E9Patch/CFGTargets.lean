import E9Patch.CFGBlocks
import Mathlib.Logic.Relation

/-!
The map of targets that `buildTargets` makes. The passes over code and data only ever add to the map, so what one
of them has found is there at the end. The pass that moves targets behind NOPs is a loop of its own for each
target; what it does depends on where the NOPs end: before another instruction, at the end of the array, or at a
gap, from which it goes back to the start of the array.
-/

namespace E9Tool
open E9Patch (Elf64_Sym INTPTR_MIN)
open Bytes (signed64)

variable {elf : ELF} {Is : List Instr}

/-! ### What is added stays -/

/-- Targets were added, or kinds to targets. -/
def Adds : Targets → Targets → Prop := Relation.ReflTransGen fun old new => ∃ target kind, new = addTarget target kind old

/-- The target is there, with all bits of the kind. -/
def Carries (targets : Targets) (target : Int) (kind : UInt8) : Prop :=
  ∃ found, OrderedMap.find targets target = some found ∧ found ||| kind = found

theorem adds_addTarget (target : Int) (kind : UInt8) (targets : Targets) : Adds targets (addTarget target kind targets) :=
  Relation.ReflTransGen.single ⟨target, kind, rfl⟩

theorem sorted_addTarget {targets : Targets} (h : OrderedMap.Sorted targets) (target : Int) (kind : UInt8) :
    OrderedMap.Sorted (addTarget target kind targets) := OrderedMap.sorted_alter h target

theorem carries_addTarget {targets : Targets} (h : OrderedMap.Sorted targets) (target : Int) (kind : UInt8) :
    Carries (addTarget target kind targets) target kind := by
  refine ⟨_, (OrderedMap.find_alter h _ _).trans (if_pos rfl), ?_⟩
  rw [UInt8.or_assoc, UInt8.or_self]

theorem Carries.addTarget {targets : Targets} (hsorted : OrderedMap.Sorted targets) {target : Int} {kind : UInt8}
    (h : Carries targets target kind) (target' : Int) (kind' : UInt8) :
    Carries (addTarget target' kind' targets) target kind := by
  obtain ⟨found, hfind, hbits⟩ := h
  by_cases heq : target = target'
  · refine ⟨found ||| kind', ?_, ?_⟩
    · rw [E9Tool.addTarget, OrderedMap.find_alter hsorted, if_pos heq, ← heq, hfind]
      rfl
    · rw [UInt8.or_assoc, UInt8.or_comm kind', ← UInt8.or_assoc, hbits]
  · refine ⟨found, ?_, hbits⟩
    rw [E9Tool.addTarget, OrderedMap.find_alter hsorted, if_neg heq, hfind]

theorem Adds.sorted {old new : Targets} (h : Adds old new) (hsorted : OrderedMap.Sorted old) :
    OrderedMap.Sorted new := by
  induction h with
  | refl => exact hsorted
  | tail _ hstep ih =>
      obtain ⟨target, kind, rfl⟩ := hstep
      exact sorted_addTarget ih target kind

theorem Adds.carries {old new : Targets} (h : Adds old new) (hsorted : OrderedMap.Sorted old) {target : Int}
    {kind : UInt8} (hcarries : Carries old target kind) : Carries new target kind := by
  induction h with
  | refl => exact hcarries
  | tail hadds hstep ih =>
      obtain ⟨target', kind', rfl⟩ := hstep
      exact ih.addTarget (Adds.sorted hadds hsorted) target' kind'

/-- Loops whose rounds add only add; `read` is where their state has the targets. -/
theorem foldl_adds {σ β : Type} {read : σ → Targets} {f : σ → β → σ} (hf : ∀ s b, Adds (read s) (read (f s b)))
    (l : List β) (s : σ) : Adds (read s) (read (l.foldl f s)) := by
  induction l generalizing s with
  | nil => exact Relation.ReflTransGen.refl
  | cons b l ih => exact (hf s b).trans (ih (f s b))

/-- What one round adds, the loop does. -/
theorem foldl_carries {σ β : Type} {read : σ → Targets} {f : σ → β → σ} (hf : ∀ s b, Adds (read s) (read (f s b)))
    {l : List β} {b : β} (hb : b ∈ l) {target : Int} {kind : UInt8}
    (hround : ∀ s, OrderedMap.Sorted (read s) → Carries (read (f s b)) target kind) {s : σ}
    (hs : OrderedMap.Sorted (read s)) : Carries (read (l.foldl f s)) target kind := by
  obtain ⟨l1, l2, rfl⟩ := List.append_of_mem hb
  rw [List.foldl_append, List.foldl_cons]
  have hs1 := (foldl_adds hf l1 s).sorted hs
  exact (foldl_adds hf l2 _).carries ((hf _ b).sorted hs1) (hround _ hs1)

/-! ### The passes over code and data -/

theorem addBranch_adds (I : Instr) (op0 : Option OpInfo) (call : Bool) (targets : Targets) :
    Adds targets (addBranch I op0 call targets) := by
  unfold addBranch
  split
  · exact adds_addTarget _ _ _
  · exact Relation.ReflTransGen.refl

theorem codeSwitch_adds (elf : ELF) (Is : List Instr) (I : Instr) (tables : List Int) (targets : Targets) :
    Adds targets (codeSwitch elf Is I tables targets).2 := by
  have hkeep : Adds targets targets := Relation.ReflTransGen.refl
  have hadd := fun target kind => adds_addTarget target kind targets
  have hbranch := fun target kind call => (hadd target kind).trans (addBranch_adds I (elf.getInstrInfo I).op0 call _)
  rw [codeSwitch]
  dsimp only
  split
  · split
    · split_ifs
      · exact hadd _ _
      · exact hkeep
    · exact hkeep
  · split
    · split_ifs
      · exact hadd _ _
      · exact hkeep
    · exact hkeep
  · split
    · split_ifs
      · exact hkeep
      · exact hadd _ _
      · exact hkeep
    · exact hkeep
  · exact hadd _ _
  · exact hbranch _ _ _
  · exact addBranch_adds _ _ _ _
  · split_ifs
    · exact hadd _ _
    · exact hkeep
  · split_ifs
    · exact hbranch _ _ _
    · exact hkeep

theorem codeStep_adds (elf : ELF) (Is : List Instr) (s : CodeScan) (I : Instr) :
    Adds s.targets (codeStep elf Is s I).targets := by
  rw [codeStep]
  refine Relation.ReflTransGen.trans ?_ (codeSwitch_adds elf Is I _ _)
  split_ifs
  · exact adds_addTarget _ _ _
  · exact Relation.ReflTransGen.refl

theorem addSymbol_adds (targets : Targets) (entry : List UInt8 × Elf64_Sym) : Adds targets (addSymbol targets entry) := by
  rw [addSymbol]
  split_ifs
  · exact adds_addTarget _ _ _
  · exact Relation.ReflTransGen.refl

theorem dataWord_adds (elf : ELF) (Is : List Instr) (shdr : Elf64_Shdr) (tables : List Int) (s : Bool × Targets)
    (p : Nat) : Adds s.2 (dataWord elf Is shdr tables s p).2 := by
  rw [dataWord]
  split_ifs
  · exact adds_addTarget _ _ _
  · exact adds_addTarget _ _ _
  · exact Relation.ReflTransGen.refl

theorem jumpTable_adds (elf : ELF) (Is : List Instr) (table : Int) (qs : List Nat) (targets : Targets) :
    Adds targets (jumpTable elf Is table qs targets) := by
  induction qs generalizing targets with
  | nil => exact Relation.ReflTransGen.refl
  | cons q qs ih =>
      rw [jumpTable]
      split_ifs
      · exact (adds_addTarget _ _ _).trans (ih _)
      · exact Relation.ReflTransGen.refl

theorem jumpTables_adds (elf : ELF) (Is : List Instr) (shdr : Elf64_Shdr) (tables : List Int) (ps : List Nat)
    (targets : Targets) : Adds targets (jumpTables elf Is shdr tables ps targets) := by
  induction ps generalizing targets with
  | nil => exact Relation.ReflTransGen.refl
  | cons p ps ih =>
      rw [jumpTables]
      refine Relation.ReflTransGen.trans ?_ (ih _)
      split_ifs
      · exact jumpTable_adds _ _ _ _ _
      · exact Relation.ReflTransGen.refl

theorem CFGSectionAnalysis_adds (elf : ELF) (Is : List Instr) (shdr : Elf64_Shdr) (tables : List Int)
    (targets : Targets) : Adds targets (CFGSectionAnalysis elf Is shdr tables targets) := by
  rw [CFGSectionAnalysis]
  split_ifs
  · exact Relation.ReflTransGen.refl
  · exact foldl_adds (dataWord_adds elf Is shdr tables) _ (true, targets)
  · exact Relation.ReflTransGen.refl
  · exact jumpTables_adds _ _ _ _ _ _
  · exact Relation.ReflTransGen.refl

theorem addRelocations_adds (elf : ELF) (targets : Targets) (shdr : Elf64_Shdr) :
    Adds targets (addRelocations elf targets shdr) := by
  have hround : ∀ targets rela, Adds targets (addRelocation elf targets rela) := by
    intro targets rela
    rw [addRelocation]
    split_ifs
    · exact adds_addTarget _ _ _
    · exact Relation.ReflTransGen.refl
  rw [addRelocations]
  split_ifs
  · exact foldl_adds hround _ targets
  · exact Relation.ReflTransGen.refl

theorem CFGDataAnalysis_adds (elf : ELF) (Is : List Instr) (tables : List Int) (targets : Targets) :
    Adds targets (CFGDataAnalysis elf Is tables targets) :=
  (foldl_adds (addRelocations_adds elf) _ targets).trans
    (foldl_adds (fun targets shdr => CFGSectionAnalysis_adds elf Is shdr tables targets) _ _)

/-- A direct call goes to the address. -/
def Called (elf : ELF) (Is : List Instr) (target : Int) : Prop :=
  ∃ I ∈ Is, (elf.getInstrInfo I).mnemonic = .CALL ∧
    ∃ imm, (elf.getInstrInfo I).op0 = some (.IMM imm) ∧ signed64 (I.address + I.size + imm) = target

/-- A function symbol, of either table, has the address. -/
def FunctionSymbol (elf : ELF) (target : Int) : Prop :=
  ∃ entry ∈ elf.dynsyms ++ elf.syms, entry.2.isFunction = true ∧ entry.2.st_value = target

theorem codeScan_sorted (elf : ELF) (Is : List Instr) : OrderedMap.Sorted (codeScan elf Is).targets :=
  (foldl_adds (codeStep_adds elf Is) Is ⟨INTPTR_MIN, [], []⟩).sorted List.Pairwise.nil

/-- The targets of the code scan, and of the symbols, are kept by the passes behind them. -/
theorem codeScan_adds (elf : ELF) (Is : List Instr) : Adds (codeScan elf Is).targets (roughTargets elf Is) :=
  (foldl_adds addSymbol_adds _ _).trans (CFGDataAnalysis_adds elf Is _ _)

/-- The first instruction is behind a gap. -/
theorem roughTargets_first (elf : ELF) {I : Instr} (rest : List Instr) (h : INTPTR_MIN ≠ I.address) :
    Carries (roughTargets elf (I :: rest)) I.address TARGET_ENTRY := by
  refine (codeScan_adds elf (I :: rest)).carries (codeScan_sorted elf _) ?_
  have hfirst : Carries (codeStep elf (I :: rest) ⟨INTPTR_MIN, [], []⟩ I).targets I.address TARGET_ENTRY := by
    rw [codeStep, if_pos h]
    exact (codeSwitch_adds elf (I :: rest) I _ _).carries (sorted_addTarget List.Pairwise.nil _ _)
      (carries_addTarget List.Pairwise.nil _ _)
  exact (foldl_adds (codeStep_adds elf (I :: rest)) rest _).carries
    ((codeStep_adds elf (I :: rest) ⟨INTPTR_MIN, [], []⟩ I).sorted List.Pairwise.nil) hfirst

theorem carries_of_or {targets : Targets} {target : Int} {kind kind' : UInt8}
    (h : Carries targets target (kind ||| kind')) : Carries targets target kind' := by
  obtain ⟨found, hfind, hbits⟩ := h
  refine ⟨found, hfind, ?_⟩
  rw [← hbits, UInt8.or_assoc, UInt8.or_assoc, UInt8.or_self]

theorem roughTargets_called {target : Int} (h : Called elf Is target) :
    Carries (roughTargets elf Is) target TARGET_FUNCTION := by
  obtain ⟨I, hI, hcall, imm, hop, rfl⟩ := h
  refine (codeScan_adds elf Is).carries (codeScan_sorted elf _) ?_
  refine foldl_carries (codeStep_adds elf Is) hI (fun s hs => ?_) List.Pairwise.nil
  have hentry : OrderedMap.Sorted (if s.next ≠ I.address then addTarget I.address TARGET_ENTRY s.targets
      else s.targets) := by
    split_ifs
    · exact sorted_addTarget hs _ _
    · exact hs
  have hbits : TARGET_DIRECT ||| (TARGET_FUNCTION ||| TARGET_CALLED) =
      (TARGET_DIRECT ||| TARGET_CALLED) ||| TARGET_FUNCTION := by decide
  have hcarries : Carries (codeStep elf Is s I).targets (signed64 (I.address + I.size + imm))
      ((TARGET_DIRECT ||| TARGET_CALLED) ||| TARGET_FUNCTION) := by
    rw [codeStep, codeSwitch, hcall, hop, ← hbits]
    exact carries_addTarget hentry _ _
  exact carries_of_or hcarries

theorem roughTargets_symbol {target : Int} (h : FunctionSymbol elf target) :
    Carries (roughTargets elf Is) target TARGET_FUNCTION := by
  obtain ⟨entry, hentry, hfunction, rfl⟩ := h
  have hsymbols : Adds (codeScan elf Is).targets (CFGCodeAnalysis elf Is).2 := foldl_adds addSymbol_adds _ _
  refine (CFGDataAnalysis_adds elf Is _ _).carries (hsymbols.sorted (codeScan_sorted elf Is)) ?_
  refine foldl_carries addSymbol_adds hentry (fun targets hsorted => ?_) (codeScan_sorted elf Is)
  rw [addSymbol, if_pos hfunction]
  exact carries_of_or (carries_addTarget hsorted _ _)

/-! ### NOPs -/

/-- An instruction of a sled and the next one. -/
def InSled (elf : ELF) (I J : Instr) : Prop :=
  (elf.getInstrInfo I).mnemonic = .NOP ∧ I.address + I.size = J.address

/-- From `i` on there are NOPs, without a gap, up to the instruction at `j`. -/
def Moves (elf : ELF) (Is : List Instr) (i j : Nat) : Prop :=
  Extends Is (InSled elf) i j ∧ ∃ J, Is[j]? = some J ∧ (elf.getInstrInfo J).mnemonic ≠ .NOP

/-- From `i` on there are NOPs, without a gap, up to the end of the array. -/
def RunsOut (elf : ELF) (Is : List Instr) (i : Nat) : Prop :=
  ∃ k, Extends Is (InSled elf) i k ∧ k + 1 = Is.length ∧ ∃ I, Is[k]? = some I ∧ (elf.getInstrInfo I).mnemonic = .NOP

/-- From `i` on there are NOPs up to a gap. -/
def LeadsToGap (elf : ELF) (Is : List Instr) (i : Nat) : Prop :=
  ∃ k I J, Extends Is (InSled elf) i k ∧ Is[k]? = some I ∧ Is[k + 1]? = some J ∧
    (elf.getInstrInfo I).mnemonic = .NOP ∧ I.address + I.size ≠ J.address

theorem Extends.exists (goes : Instr → Instr → Prop) {i : Nat} (hi : i < Is.length) : ∃ k, Extends Is goes i k := by
  by_cases h : Continues Is goes i
  · obtain ⟨I, J, -, hJ, -⟩ := id h
    obtain ⟨k, hk⟩ := Extends.exists goes (List.getElem?_eq_some_iff.mp hJ).1
    exact ⟨k, hk.step h⟩
  · exact ⟨i, .stop hi h⟩
termination_by Is.length - i

theorem Extends.unique {goes : Instr → Instr → Prop} {i k k' : Nat} (h : Extends Is goes i k)
    (h' : Extends Is goes i k') : k = k' := by
  rcases Nat.lt_trichotomy k k' with hlt | heq | hlt
  · exact absurd (h'.continues k h.le hlt) h.ends
  · exact heq
  · exact absurd (h.continues k' h'.le hlt) h'.ends

/-- The three ways a sled ends. -/
theorem sled_cases (elf : ELF) (i : Nat) (hi : i < Is.length) :
    (∃ j, Moves elf Is i j) ∨ RunsOut elf Is i ∨ LeadsToGap elf Is i := by
  obtain ⟨k, hk⟩ := Extends.exists (InSled elf) hi
  obtain ⟨I, hI⟩ : ∃ I, Is[k]? = some I := ⟨_, List.getElem?_eq_getElem hk.lt⟩
  by_cases hnop : (elf.getInstrInfo I).mnemonic = .NOP
  · cases hJ : Is[k + 1]? with
    | none =>
        refine Or.inr (Or.inl ⟨k, hk, ?_, I, hI, hnop⟩)
        have hlen := List.getElem?_eq_none_iff.mp hJ
        have hlt := hk.lt
        omega
    | some J =>
        refine Or.inr (Or.inr ⟨k, I, J, hk, hI, hJ, hnop, fun hnext => ?_⟩)
        exact hk.ends ⟨I, J, hI, hJ, hnop, hnext⟩
  · exact Or.inl ⟨k, hk, I, hI, hnop⟩

/-- The loop goes through a sled in as many rounds as it has NOPs. -/
theorem skipNOPs_sled {i k : Nat} (h : Extends Is (InSled elf) i k) (fuel : Nat) :
    skipNOPs elf Is (fuel + (k - i)) i = skipNOPs elf Is fuel k := by
  rcases Nat.eq_or_lt_of_le h.le with rfl | hlt
  · rw [Nat.sub_self, Nat.add_zero]
  · obtain ⟨I, J, hI, hJ, hnop, hnext⟩ := h.continues i le_rfl hlt
    have htail : Extends Is (InSled elf) (i + 1) k :=
      ⟨hlt, h.lt, fun k' h1 h2 => h.continues k' (by omega) h2, h.ends⟩
    have hfuel : fuel + (k - i) = fuel + (k - (i + 1)) + 1 := by omega
    rw [hfuel, skipNOPs, hI, hJ]
    dsimp only
    rw [if_neg (not_not.mpr hnop), if_neg (by simp [hnext])]
    exact skipNOPs_sled htail fuel
termination_by k - i

/-- Without as many rounds the loop does not come to its end. -/
theorem skipNOPs_short {i k : Nat} (h : Extends Is (InSled elf) i k) {fuel : Nat} (hfuel : fuel ≤ k - i) :
    skipNOPs elf Is fuel i = none := by
  cases fuel with
  | zero => rfl
  | succ fuel =>
      obtain ⟨I, J, hI, hJ, hnop, hnext⟩ := h.continues i le_rfl (by omega)
      have htail : Extends Is (InSled elf) (i + 1) k :=
        ⟨by omega, h.lt, fun k' h1 h2 => h.continues k' (by omega) h2, h.ends⟩
      rw [skipNOPs, hI, hJ]
      dsimp only
      rw [if_neg (not_not.mpr hnop), if_neg (by simp [hnext])]
      exact skipNOPs_short htail (by omega)

theorem skipNOPs_moves {i j : Nat} (h : Moves elf Is i j) {fuel : Nat} (hfuel : j - i < fuel) :
    skipNOPs elf Is fuel i = some (some j) := by
  obtain ⟨hk, J, hJ, hnop⟩ := h
  obtain ⟨n, rfl⟩ : ∃ n, fuel = n + 1 + (j - i) := ⟨fuel - (j - i) - 1, by omega⟩
  rw [skipNOPs_sled hk, skipNOPs, hJ]
  dsimp only
  rw [if_pos hnop]

theorem skipNOPs_runsOut {i : Nat} (h : RunsOut elf Is i) {fuel : Nat} (hfuel : Is.length - i < fuel) :
    skipNOPs elf Is fuel i = some none := by
  obtain ⟨k, hk, hend, I, hI, hnop⟩ := h
  obtain ⟨n, rfl⟩ : ∃ n, fuel = n + 1 + 1 + (k - i) := ⟨fuel - (k - i) - 2, by have := hk.le; omega⟩
  have hnone : Is[k + 1]? = none := List.getElem?_eq_none_iff.mpr hend.ge
  rw [skipNOPs_sled hk, skipNOPs, hI, hnone]
  dsimp only
  rw [if_neg (not_not.mpr hnop), if_neg (by simp), skipNOPs, hnone]

/-- At the end of the array there is no instruction to be found. -/
theorem skipNOPs_runsOut_ne {i : Nat} (h : RunsOut elf Is i) (fuel j : Nat) : skipNOPs elf Is fuel i ≠ some (some j) := by
  intro hrun
  obtain ⟨k, hk, hend, I, hI, hnop⟩ := h
  have hnone : Is[k + 1]? = none := List.getElem?_eq_none_iff.mpr hend.ge
  rcases Nat.lt_or_ge (k - i) fuel with hlt | hle
  · obtain ⟨n, rfl⟩ : ∃ n, fuel = n + 1 + (k - i) := ⟨fuel - (k - i) - 1, by omega⟩
    rw [skipNOPs_sled hk, skipNOPs, hI, hnone] at hrun
    dsimp only at hrun
    rw [if_neg (not_not.mpr hnop), if_neg (by simp)] at hrun
    cases n with
    | zero => cases hrun
    | succ n =>
        rw [skipNOPs, hnone] at hrun
        cases hrun
  · rw [skipNOPs_short hk hle] at hrun
    cases hrun

/-- From a gap the loop goes back to the first instruction. -/
theorem skipNOPs_gap {i : Nat} (h : LeadsToGap elf Is i) {fuel : Nat} {r : Option Nat}
    (hrun : skipNOPs elf Is fuel i = some r) : ∃ n < fuel, skipNOPs elf Is n 0 = some r := by
  obtain ⟨k, I, J, hk, hI, hJ, hnop, hgap⟩ := h
  rcases Nat.lt_or_ge (k - i) fuel with hlt | hle
  · obtain ⟨n, rfl⟩ : ∃ n, fuel = n + 1 + (k - i) := ⟨fuel - (k - i) - 1, by omega⟩
    rw [skipNOPs_sled hk, skipNOPs, hI, hJ] at hrun
    dsimp only at hrun
    rw [if_neg (not_not.mpr hnop), if_pos (by simp [Ne.symm hgap])] at hrun
    exact ⟨n, by omega, hrun⟩
  · rw [skipNOPs_short hk hle] at hrun
    cases hrun

/-- If the NOPs at the start of the array lead to a gap, the loop does not end. -/
theorem skipNOPs_loops (h : LeadsToGap elf Is 0) (fuel : Nat) : skipNOPs elf Is fuel 0 = none := by
  induction fuel using Nat.strong_induction_on with
  | _ fuel ih =>
      by_contra hrun
      obtain ⟨r, hr⟩ := Option.ne_none_iff_exists'.mp hrun
      obtain ⟨n, hn, hn'⟩ := skipNOPs_gap h hr
      rw [ih n hn] at hn'
      cases hn'

/-- Behind a gap the loop does not find the end of the array. -/
theorem skipNOPs_gap_ne {i : Nat} (h : LeadsToGap elf Is i) (fuel : Nat) : skipNOPs elf Is fuel i ≠ some none := by
  intro hrun
  obtain ⟨n, -, hn⟩ := skipNOPs_gap h hrun
  obtain ⟨k, I, J, hk, hI, hJ, hnop, hgap⟩ := h
  have hlt := hk.lt
  rcases sled_cases elf 0 (Nat.zero_lt_of_lt hlt) with ⟨j, hj⟩ | ⟨k', hk', hend, -⟩ | h0
  · rcases Nat.lt_or_ge (j - 0) n with hn' | hn'
    · rw [skipNOPs_moves hj hn'] at hn
      cases hn
    · rw [skipNOPs_short hj.1 hn'] at hn
      cases hn
  · -- the array has no gap among its NOPs
    have hJ' := (List.getElem?_eq_some_iff.mp hJ).1
    obtain ⟨I', J', hI', hJ'', -, hnext⟩ := hk'.continues k (Nat.zero_le k) (by omega)
    obtain rfl := Option.some.inj (hI.symm.trans hI')
    obtain rfl := Option.some.inj (hJ.symm.trans hJ'')
    exact hgap hnext
  · rw [skipNOPs_loops h0 n] at hn
    cases hn

/-! ### The clean map -/

theorem skipNOPs_some {fuel i j : Nat} (h : skipNOPs elf Is fuel i = some (some j)) : ∃ J, Is[j]? = some J := by
  induction fuel generalizing i with
  | zero => cases h
  | succ fuel ih =>
      rw [skipNOPs] at h
      cases hI : Is[i]? with
      | none =>
          rw [hI] at h
          cases h
      | some I =>
          rw [hI] at h
          dsimp only at h
          split_ifs at h with hnop hgap
          · obtain rfl := Option.some.inj (Option.some.inj h)
            exact ⟨I, hI⟩
          · exact ih h
          · exact ih h

/-- The third pass keeps a target, loses it, or moves it behind NOPs. -/
theorem cleanUp_cases {fuel : Nat} {T T' : Targets} {entry : Int × UInt8}
    (h : cleanUp elf Is fuel T entry = some T') :
    (findInstr Is entry.1 = none ∧ T' = T) ∨
    (∃ i, findInstr Is entry.1 = some i ∧ skipNOPs elf Is fuel i = some none ∧ T' = T) ∨
    ∃ i j J, findInstr Is entry.1 = some i ∧ skipNOPs elf Is fuel i = some (some j) ∧ Is[j]? = some J ∧
      T' = addTarget J.address entry.2 T := by
  rw [cleanUp] at h
  cases hi : findInstr Is entry.1 with
  | none =>
      rw [hi] at h
      exact Or.inl ⟨rfl, (Option.some.inj h).symm⟩
  | some i =>
      rw [hi] at h
      obtain ⟨r, hr, rfl⟩ := Option.map_eq_some_iff.mp h
      cases r with
      | none => exact Or.inr (Or.inl ⟨i, rfl, hr, rfl⟩)
      | some j =>
          obtain ⟨J, hJ⟩ := skipNOPs_some hr
          refine Or.inr (Or.inr ⟨i, j, J, rfl, hr, hJ, ?_⟩)
          dsimp only
          rw [hJ]
          rfl

theorem cleanUp_adds {fuel : Nat} {T T' : Targets} {entry : Int × UInt8}
    (h : cleanUp elf Is fuel T entry = some T') : Adds T T' := by
  obtain ⟨-, rfl⟩ | ⟨i, -, -, rfl⟩ | ⟨i, j, J, -, -, -, rfl⟩ := cleanUp_cases h
  · exact Relation.ReflTransGen.refl
  · exact Relation.ReflTransGen.refl
  · exact adds_addTarget _ _ _

/-- If the third pass comes to its end, so does the loop of each of its targets. -/
theorem foldlM_cleanUp_runs {fuel : Nat} {entries T T' : Targets}
    (h : entries.foldlM (cleanUp elf Is fuel) T = some T') {entry : Int × UInt8} (hentry : entry ∈ entries) {i : Nat}
    (hi : findInstr Is entry.1 = some i) : ∃ r, skipNOPs elf Is fuel i = some r := by
  induction entries generalizing T with
  | nil => cases hentry
  | cons entry' entries ih =>
      rw [List.foldlM_cons, Option.bind_eq_bind, Option.bind_eq_some_iff] at h
      obtain ⟨T1, h1, h2⟩ := h
      rcases List.mem_cons.mp hentry with rfl | hentry
      · obtain ⟨hnone, -⟩ | ⟨i', hi', hr, -⟩ | ⟨i', j, J, hi', hr, -, -⟩ := cleanUp_cases h1
        · rw [hi] at hnone
          cases hnone
        · obtain rfl := Option.some.inj (hi.symm.trans hi')
          exact ⟨none, hr⟩
        · obtain rfl := Option.some.inj (hi.symm.trans hi')
          exact ⟨some j, hr⟩
      · exact ih h2 hentry

/-- The clean map has addresses of instructions only. -/
theorem foldlM_cleanUp_keys {fuel : Nat} {entries T T' : Targets}
    (h : entries.foldlM (cleanUp elf Is fuel) T = some T') (hT : ∀ entry ∈ T, ∃ I ∈ Is, I.address = entry.1) :
    ∀ entry ∈ T', ∃ I ∈ Is, I.address = entry.1 := by
  induction entries generalizing T with
  | nil =>
      obtain rfl := Option.some.inj h
      exact hT
  | cons entry entries ih =>
      rw [List.foldlM_cons, Option.bind_eq_bind, Option.bind_eq_some_iff] at h
      obtain ⟨T1, h1, h2⟩ := h
      refine ih h2 ?_
      obtain ⟨-, rfl⟩ | ⟨i, -, -, rfl⟩ | ⟨i, j, J, -, -, hJ, rfl⟩ := cleanUp_cases h1
      · exact hT
      · exact hT
      · intro e he
        rcases OrderedMap.mem_alter he with hkey | he
        · exact ⟨J, List.mem_of_getElem? hJ, hkey.symm⟩
        · exact hT e he

theorem foldlM_cleanUp_total {fuel : Nat} {entries : Targets} (T : Targets)
    (h : ∀ entry ∈ entries, ∀ i, findInstr Is entry.1 = some i → (skipNOPs elf Is fuel i).isSome) :
    ∃ T', entries.foldlM (cleanUp elf Is fuel) T = some T' := by
  induction entries generalizing T with
  | nil => exact ⟨T, rfl⟩
  | cons entry entries ih =>
      obtain ⟨hentry, hentries⟩ := List.forall_mem_cons.mp h
      obtain ⟨T1, h1⟩ : ∃ T1, cleanUp elf Is fuel T entry = some T1 := by
        rw [cleanUp]
        cases hi : findInstr Is entry.1 with
        | none => exact ⟨T, rfl⟩
        | some i =>
            obtain ⟨r, hr⟩ := Option.isSome_iff_exists.mp (hentry i hi)
            exact ⟨_, congrArg (Option.map _) hr⟩
      obtain ⟨T', hT'⟩ := ih T1 hentries
      refine ⟨T', ?_⟩
      rw [List.foldlM_cons, Option.bind_eq_bind, Option.bind_eq_some_iff]
      exact ⟨T1, h1, hT'⟩

/-! ### What the targets give -/

theorem or_or_eq_left {k a b : UInt8} : k ||| (a ||| b) = k ↔ k ||| a = k ∧ k ||| b = k := by
  constructor
  · intro h
    have ha : k ||| (a ||| b) ||| a = k ||| (a ||| b) := by
      rw [UInt8.or_assoc, UInt8.or_assoc, UInt8.or_comm b a, ← UInt8.or_assoc a a b, UInt8.or_self]
    have hb : k ||| (a ||| b) ||| b = k ||| (a ||| b) := by
      rw [UInt8.or_assoc, UInt8.or_assoc, UInt8.or_self]
    rw [h] at ha hb
    exact ⟨ha, hb⟩
  · rintro ⟨ha, hb⟩
    rw [← UInt8.or_assoc, ha, hb]

/-- What the targets that go to the instruction at `j` give it: nothing if there are none, and else the union of their
kinds, whose bits a kind has just when it has the bits of each of them. -/
def Gathers (goes : Int → Nat → Prop) (entries : Targets) (j : Nat) : Option UInt8 → Prop
  | none => ∀ entry ∈ entries, ¬goes entry.1 j
  | some kind => (∃ entry ∈ entries, goes entry.1 j) ∧
      ∀ k, k ||| kind = k ↔ ∀ entry ∈ entries, goes entry.1 j → k ||| entry.2 = k

section
variable {goes : Int → Nat → Prop} {entries : Targets} {entry : Int × UInt8} {j : Nat} {r : Option UInt8}

/-- A target that goes elsewhere gives nothing. -/
theorem Gathers.skip (h : Gathers goes entries j r) (hentry : ¬goes entry.1 j) :
    Gathers goes (entries ++ [entry]) j r := by
  cases r with
  | none => exact List.forall_mem_append.mpr ⟨h, List.forall_mem_singleton.mpr hentry⟩
  | some kind =>
      obtain ⟨⟨e, he, hgoes⟩, hbits⟩ := h
      refine ⟨⟨e, List.mem_append_left _ he, hgoes⟩, fun k => (hbits k).trans ?_⟩
      rw [List.forall_mem_append, List.forall_mem_singleton]
      exact (and_iff_left fun hgoes => absurd hgoes hentry).symm

/-- A target that goes there gives its kind. -/
theorem Gathers.land (h : Gathers goes entries j r) (hentry : goes entry.1 j) :
    Gathers goes (entries ++ [entry]) j (some (r.getD 0 ||| entry.2)) := by
  refine ⟨⟨entry, List.mem_append_right _ List.mem_cons_self, hentry⟩, fun k => ?_⟩
  rw [or_or_eq_left, List.forall_mem_append, List.forall_mem_singleton, forall_prop_of_true hentry]
  refine and_congr_left fun _ => ?_
  cases r with
  | none => exact iff_of_true UInt8.or_zero fun e he hgoes => absurd hgoes (h e he)
  | some kind => exact h.2 k

/-- A target that goes there has its bits in what is given. -/
theorem Gathers.carries {kind : UInt8} (h : Gathers goes entries j (some kind)) (hentry : entry ∈ entries)
    (hgoes : goes entry.1 j) : kind ||| entry.2 = kind :=
  (h.2 kind).mp UInt8.or_self entry hentry hgoes

/-- If one goes there, something is given. -/
theorem Gathers.exists_kind (h : Gathers goes entries j r) (hentry : entry ∈ entries) (hgoes : goes entry.1 j) :
    ∃ kind, r = some kind := by
  cases r with
  | none => exact absurd hgoes (h entry hentry)
  | some kind => exact ⟨kind, rfl⟩

end

/-- The loop of the third pass moves the target to the instruction at `j`. -/
def Lands (elf : ELF) (Is : List Instr) (fuel : Nat) (target : Int) (j : Nat) : Prop :=
  ∃ i, findInstr Is target = some i ∧ skipNOPs elf Is fuel i = some (some j)

theorem Ascending.index (hIs : Ascending Is) {i j : Nat} {I J : Instr} (hI : Is[i]? = some I) (hJ : Is[j]? = some J)
    (haddr : I.address = J.address) : i = j := by
  have hi := hIs.findInstr_iff.mpr ⟨I, hI, haddr⟩
  have hj := hIs.findInstr_iff.mpr ⟨J, hJ, rfl⟩
  exact Option.some.inj (hi.symm.trans hj)

/-- The clean map gathers at each instruction what the loop has moved there. -/
theorem cleanUp_gathers (hIs : Ascending Is) {fuel : Nat} {before T T' : Targets} {entry : Int × UInt8}
    (hsorted : OrderedMap.Sorted T) (h : cleanUp elf Is fuel T entry = some T')
    (hT : ∀ j J, Is[j]? = some J → Gathers (Lands elf Is fuel) before j (OrderedMap.find T J.address)) :
    ∀ j J, Is[j]? = some J → Gathers (Lands elf Is fuel) (before ++ [entry]) j (OrderedMap.find T' J.address) := by
  intro j J hJ
  obtain ⟨hnone, rfl⟩ | ⟨i, hi, hr, rfl⟩ | ⟨i, j', J', hi, hr, hJ', rfl⟩ := cleanUp_cases h
  · refine (hT j J hJ).skip ?_
    rintro ⟨i, hi, -⟩
    rw [hnone] at hi
    cases hi
  · refine (hT j J hJ).skip ?_
    rintro ⟨i', hi', hr'⟩
    obtain rfl := Option.some.inj (hi.symm.trans hi')
    cases hr.symm.trans hr'
  · rw [addTarget, OrderedMap.find_alter hsorted]
    split_ifs with haddr
    · obtain rfl := hIs.index hJ hJ' haddr
      obtain rfl := Option.some.inj (hJ.symm.trans hJ')
      exact (hT j J hJ).land ⟨i, hi, hr⟩
    · refine (hT j J hJ).skip ?_
      rintro ⟨i', hi', hr'⟩
      obtain rfl := Option.some.inj (hi.symm.trans hi')
      obtain rfl := Option.some.inj (Option.some.inj (hr.symm.trans hr'))
      obtain rfl := Option.some.inj (hJ.symm.trans hJ')
      exact haddr rfl

theorem foldlM_cleanUp_gathers (hIs : Ascending Is) {fuel : Nat} (before : Targets) {entries T T' : Targets}
    (hsorted : OrderedMap.Sorted T) (h : entries.foldlM (cleanUp elf Is fuel) T = some T')
    (hT : ∀ j J, Is[j]? = some J → Gathers (Lands elf Is fuel) before j (OrderedMap.find T J.address)) :
    ∀ j J, Is[j]? = some J → Gathers (Lands elf Is fuel) (before ++ entries) j (OrderedMap.find T' J.address) := by
  induction entries generalizing before T with
  | nil =>
      obtain rfl := Option.some.inj h
      rwa [List.append_nil]
  | cons entry entries ih =>
      rw [List.foldlM_cons, Option.bind_eq_bind, Option.bind_eq_some_iff] at h
      obtain ⟨T1, h1, h2⟩ := h
      rw [List.append_cons]
      exact ih (before ++ [entry]) ((cleanUp_adds h1).sorted hsorted) h2 (cleanUp_gathers hIs hsorted h1 hT)

/-! ### The canonical map -/

/-- A kind in normal form: how a target is reached and whether it is a function, and nothing else. -/
def Normalized (kind : UInt8) : Prop := kind &&& (TARGET_DIRECT ||| TARGET_INDIRECT ||| TARGET_FUNCTION) = kind

/-- A target leads to the instruction at `j`: from its own instruction on there are NOPs, without a gap, up to this
one, which is not a NOP. -/
def LeadsTo (elf : ELF) (Is : List Instr) (target : Int) (j : Nat) : Prop :=
  ∃ i I, Is[i]? = some I ∧ I.address = target ∧ Moves elf Is i j

/-- The canonical map, its kinds in the form of `norm`: an instruction is in it just when targets of the code and the
data lead to it, and has what they give it. -/
structure Canonical (norm : UInt8 → UInt8) (elf : ELF) (Is : List Instr) (T : Targets) : Prop where
  keys : ∀ entry ∈ T, ∃ I ∈ Is, I.address = entry.1
  moved : ∀ j J, Is[j]? = some J → ∃ r, Gathers (LeadsTo elf Is) (roughTargets elf Is) j r ∧
    OrderedMap.find T J.address = r.map norm
  functions : ∀ target, Called elf Is target ∨ FunctionSymbol elf target → ∀ j J, LeadsTo elf Is target j →
    Is[j]? = some J → Carries T J.address TARGET_FUNCTION
  kept : ∀ entry ∈ roughTargets elf Is, ∀ I ∈ Is, I.address = entry.1 → (elf.getInstrInfo I).mnemonic ≠ .NOP →
    (OrderedMap.find T entry.1).isSome

/-- The whole array is one run of NOPs. -/
def OnlyNOPs (elf : ELF) (Is : List Instr) : Prop := Is = [] ∨ RunsOut elf Is 0

/-- If a target leads to a gap, then the NOPs at the start of the array lead to an instruction that is given all bits
of its kind by other targets. -/
def GapsHidden (elf : ELF) (Is : List Instr) : Prop :=
  ∀ entry ∈ roughTargets elf Is, ∀ i I, Is[i]? = some I → I.address = entry.1 → LeadsToGap elf Is i →
    ∃ j kind, Moves elf Is 0 j ∧ Gathers (LeadsTo elf Is) (roughTargets elf Is) j (some kind) ∧ kind ||| entry.2 = kind

theorem buildTargets_eq {fuel : Nat} {T : Targets} (h : buildTargets elf Is fuel = some T) :
    (roughTargets elf Is).foldlM (cleanUp elf Is fuel) [] = some T := by
  obtain ⟨T', hT', rfl⟩ := Option.map_eq_some_iff.mp h
  exact hT'

/-- The map that is returned has what the loop has moved. -/
theorem buildTargets_gathers (hIs : Ascending Is) {fuel : Nat} {T : Targets} (h : buildTargets elf Is fuel = some T)
    {j : Nat} {J : Instr} (hJ : Is[j]? = some J) :
    Gathers (Lands elf Is fuel) (roughTargets elf Is) j (OrderedMap.find T J.address) :=
  foldlM_cleanUp_gathers hIs [] List.Pairwise.nil (buildTargets_eq h)
    (fun _ _ _ _ hentry => nomatch hentry) j J hJ

/-- An instruction that is not a NOP stays where it is. -/
theorem moves_self {i : Nat} {I : Instr} (hI : Is[i]? = some I) (hnop : (elf.getInstrInfo I).mnemonic ≠ .NOP) :
    Moves elf Is i i := by
  refine ⟨.stop (List.getElem?_eq_some_iff.mp hI).1 ?_, I, hI, hnop⟩
  rintro ⟨I', J', hI', -, hnop', -⟩
  obtain rfl := Option.some.inj (hI.symm.trans hI')
  exact hnop hnop'

theorem Moves.unique {i j j' : Nat} (h : Moves elf Is i j) (h' : Moves elf Is i j') : j = j' := h.1.unique h'.1

theorem Moves.not_leadsToGap {i j : Nat} (h : Moves elf Is i j) : ¬LeadsToGap elf Is i := by
  rintro ⟨k, I, J, hk, hI, -, hnop, -⟩
  obtain ⟨hj, I', hI', hnop'⟩ := h
  obtain rfl := hj.unique hk
  obtain rfl := Option.some.inj (hI.symm.trans hI')
  exact hnop' hnop

/-- Without a gap the loop ends where the NOPs lead. -/
theorem moves_of_skipNOPs {fuel i j : Nat} (h : skipNOPs elf Is fuel i = some (some j)) (hi : i < Is.length)
    (hgap : ¬LeadsToGap elf Is i) : Moves elf Is i j := by
  rcases sled_cases elf i hi with ⟨j', hj'⟩ | hout | hgap'
  · rcases Nat.lt_or_ge (j' - i) fuel with hlt | hle
    · rw [skipNOPs_moves hj' hlt] at h
      rwa [← Option.some.inj (Option.some.inj h)]
    · rw [skipNOPs_short hj'.1 hle] at h
      cases h
  · exact absurd h (skipNOPs_runsOut_ne hout fuel j)
  · exact absurd hgap' hgap

/-- Where the loop ends is where the NOPs lead, or, if that is a gap, where those at the start of the array lead. -/
theorem skipNOPs_end {fuel i j : Nat} (h : skipNOPs elf Is fuel i = some (some j)) (hi : i < Is.length) :
    Moves elf Is i j ∨ LeadsToGap elf Is i ∧ Moves elf Is 0 j := by
  by_cases hgap : LeadsToGap elf Is i
  · obtain ⟨n, -, hn⟩ := skipNOPs_gap hgap h
    refine Or.inr ⟨hgap, moves_of_skipNOPs hn (by omega) fun h0 => ?_⟩
    rw [skipNOPs_loops h0 n] at hn
    cases hn
  · exact Or.inl (moves_of_skipNOPs h hi hgap)

/-- With enough rounds the loop ends there. -/
theorem skipNOPs_lands {i j : Nat} (h : Moves elf Is i j ∨ LeadsToGap elf Is i ∧ Moves elf Is 0 j) {fuel : Nat}
    (hfuel : 2 * Is.length + 2 ≤ fuel) : skipNOPs elf Is fuel i = some (some j) := by
  rcases h with hmoves | ⟨⟨k, I, J, hk, hI, hJ, hnop, hgap⟩, hmoves⟩
  · have hlt := hmoves.1.lt
    exact skipNOPs_moves hmoves (by omega)
  · have hlt := hk.lt
    have hlt' := hmoves.1.lt
    obtain ⟨n, rfl⟩ : ∃ n, fuel = n + 1 + (k - i) := ⟨fuel - (k - i) - 1, by omega⟩
    rw [skipNOPs_sled hk, skipNOPs, hI, hJ]
    dsimp only
    rw [if_neg (not_not.mpr hnop), if_pos (by simp [Ne.symm hgap])]
    exact skipNOPs_moves hmoves (by omega)

theorem lands_iff (hIs : Ascending Is) {fuel : Nat} (hfuel : 2 * Is.length + 2 ≤ fuel) {target : Int} {j : Nat} :
    Lands elf Is fuel target j ↔ ∃ i I, Is[i]? = some I ∧ I.address = target ∧
      (Moves elf Is i j ∨ LeadsToGap elf Is i ∧ Moves elf Is 0 j) := by
  constructor
  · rintro ⟨i, hi, hr⟩
    obtain ⟨I, hI, haddr⟩ := findInstr_some hi
    exact ⟨i, I, hI, haddr, skipNOPs_end hr (List.getElem?_eq_some_iff.mp hI).1⟩
  · rintro ⟨i, I, hI, haddr, hends⟩
    exact ⟨i, hIs.findInstr_iff.mpr ⟨I, hI, haddr⟩, skipNOPs_lands hends hfuel⟩

theorem or_eq_trans {k a b : UInt8} (h1 : k ||| a = k) (h2 : a ||| b = a) : k ||| b = k := by
  rw [← h1, UInt8.or_assoc, h2]

/-- If no target shows that leads to a gap, the loop gives what the targets that lead there give. -/
theorem GapsHidden.gathers (h : GapsHidden elf Is) (hIs : Ascending Is) {fuel : Nat}
    (hfuel : 2 * Is.length + 2 ≤ fuel) {j : Nat} {r : Option UInt8}
    (hr : Gathers (Lands elf Is fuel) (roughTargets elf Is) j r) :
    Gathers (LeadsTo elf Is) (roughTargets elf Is) j r := by
  have hlands : ∀ {target}, LeadsTo elf Is target j → Lands elf Is fuel target j :=
    fun ⟨i, I, hI, haddr, hmoves⟩ => (lands_iff hIs hfuel).mpr ⟨i, I, hI, haddr, Or.inl hmoves⟩
  have hleads : ∀ entry ∈ roughTargets elf Is, Lands elf Is fuel entry.1 j → LeadsTo elf Is entry.1 j ∨
      ∃ kind, Gathers (LeadsTo elf Is) (roughTargets elf Is) j (some kind) ∧ kind ||| entry.2 = kind := by
    intro entry hentry hland
    obtain ⟨i, I, hI, haddr, hmoves | ⟨hgap, hmoves⟩⟩ := (lands_iff hIs hfuel).mp hland
    · exact Or.inl ⟨i, I, hI, haddr, hmoves⟩
    · obtain ⟨j', kind, hmoves', hkind, hbits⟩ := h entry hentry i I hI haddr hgap
      obtain rfl := hmoves.unique hmoves'
      exact Or.inr ⟨kind, hkind, hbits⟩
  cases r with
  | none => exact fun entry hentry hgoes => hr entry hentry (hlands hgoes)
  | some kind =>
      obtain ⟨⟨entry, hentry, hland⟩, hbits⟩ := hr
      constructor
      · rcases hleads entry hentry hland with hgoes | ⟨_, hkind, -⟩
        · exact ⟨entry, hentry, hgoes⟩
        · exact hkind.1
      · intro k
        refine (hbits k).trans ⟨fun hall e he hgoes => hall e he (hlands hgoes), fun hall e he hland => ?_⟩
        rcases hleads e he hland with hgoes | ⟨kind', hkind', hbits'⟩
        · exact hall e he hgoes
        · exact or_eq_trans ((hkind'.2 k).mpr hall) hbits'

/-- Then the map is made, and it is canonical but for the form of the kinds. -/
theorem buildTargets_canonical (hIs : Ascending Is) (h : GapsHidden elf Is) :
    ∃ fuel T, buildTargets elf Is fuel = some T ∧ Canonical id elf Is T := by
  have hruns : ∀ entry ∈ roughTargets elf Is, ∀ i, findInstr Is entry.1 = some i →
      (skipNOPs elf Is (2 * Is.length + 2) i).isSome := by
    intro entry hentry i hi
    obtain ⟨I, hI, haddr⟩ := findInstr_some hi
    rcases sled_cases elf i (List.getElem?_eq_some_iff.mp hI).1 with ⟨j, hj⟩ | hout | hgap
    · rw [skipNOPs_lands (Or.inl hj) le_rfl]
      rfl
    · rw [skipNOPs_runsOut hout (by omega)]
      rfl
    · obtain ⟨j, -, hj, -, -⟩ := h entry hentry i I hI haddr hgap
      rw [skipNOPs_lands (Or.inr ⟨hgap, hj⟩) le_rfl]
      rfl
  obtain ⟨T, hT⟩ := foldlM_cleanUp_total [] hruns
  have hbuild : buildTargets elf Is (2 * Is.length + 2) = some T := Option.map_eq_some_iff.mpr ⟨T, hT, rfl⟩
  have hgives : ∀ {j J}, Is[j]? = some J →
      Gathers (LeadsTo elf Is) (roughTargets elf Is) j (OrderedMap.find T J.address) :=
    fun hJ => h.gathers hIs le_rfl (buildTargets_gathers hIs hbuild hJ)
  refine ⟨_, T, hbuild, ?_, fun j J hJ => ⟨_, hgives hJ, Option.map_id'.symm⟩, ?_, ?_⟩
  · exact foldlM_cleanUp_keys hT fun entry hentry => nomatch hentry
  · intro target htarget j J hleads hJ
    obtain ⟨kind, hfind, hbits⟩ := htarget.elim roughTargets_called roughTargets_symbol
    have hmem := OrderedMap.mem_of_find hfind
    have hgive := hgives hJ
    obtain ⟨kind', hfind'⟩ := hgive.exists_kind hmem hleads
    rw [hfind'] at hgive
    exact ⟨kind', hfind', or_eq_trans (hgive.carries hmem hleads) hbits⟩
  · intro entry hentry I hI haddr hnop
    obtain ⟨i, hi⟩ := List.mem_iff_getElem?.mp hI
    obtain ⟨kind, hfind⟩ := (hgives hi).exists_kind hentry ⟨i, I, hi, haddr, moves_self hi hnop⟩
    rw [haddr] at hfind
    exact Option.isSome_iff_exists.mpr ⟨kind, hfind⟩

/-- A target that leads to a gap is moved to where the first NOPs lead, so a canonical map has to have its bits
there. -/
theorem gapsHidden_of_canonical (hIs : Ascending Is) {fuel : Nat} {T : Targets}
    (h : buildTargets elf Is fuel = some T) (hT : Canonical id elf Is T) : GapsHidden elf Is := by
  intro entry hentry i I hI haddr hgap
  have hi : findInstr Is entry.1 = some i := hIs.findInstr_iff.mpr ⟨I, hI, haddr⟩
  obtain ⟨r, hr⟩ := foldlM_cleanUp_runs (buildTargets_eq h) hentry hi
  cases r with
  | none => exact absurd hr (skipNOPs_gap_ne hgap fuel)
  | some j =>
      obtain ⟨J, hJ⟩ := skipNOPs_some hr
      have hgive := buildTargets_gathers hIs h hJ
      obtain ⟨kind, hfind⟩ := hgive.exists_kind hentry ⟨i, hi, hr⟩
      obtain ⟨r, hleads, hmap⟩ := hT.moved j J hJ
      obtain rfl : some kind = r := hfind.symm.trans (hmap.trans Option.map_id')
      rw [hfind] at hgive
      rcases skipNOPs_end hr (List.getElem?_eq_some_iff.mp hI).1 with hmoves | ⟨-, hmoves⟩
      · exact absurd hgap hmoves.not_leadsToGap
      · exact ⟨j, kind, hmoves, hleads, hgive.carries hentry ⟨i, hi, hr⟩⟩

theorem normalized_normalize (elf : ELF) (kind : UInt8) : Normalized (normalize elf kind) := by
  unfold Normalized normalize
  rw [UInt8.and_assoc, UInt8.and_self]

/-- An entry is not a kind in normal form. -/
theorem not_normalized {kind : UInt8} (h : kind ||| TARGET_ENTRY = kind) : ¬Normalized kind := by
  intro hnormal
  have hbit : kind &&& TARGET_ENTRY = TARGET_ENTRY := by
    rw [← h]
    apply UInt8.toBitVec_inj.mp
    rw [UInt8.toBitVec_and, UInt8.toBitVec_or]
    ext i hi
    rw [BitVec.getElem_and, BitVec.getElem_or]
    cases TARGET_ENTRY.toBitVec[i] <;> simp
  have hzero : (TARGET_DIRECT ||| TARGET_INDIRECT ||| TARGET_FUNCTION) &&& TARGET_ENTRY = 0 := by decide
  rw [← hnormal, UInt8.and_assoc, hzero, UInt8.and_zero] at hbit
  exact absurd hbit (by decide)

/-- In a run of NOPs each one runs out. -/
theorem OnlyNOPs.runsOut (h : OnlyNOPs elf Is) {i : Nat} {I : Instr} (hI : Is[i]? = some I) :
    RunsOut elf Is i ∧ (elf.getInstrInfo I).mnemonic = .NOP := by
  have hi := (List.getElem?_eq_some_iff.mp hI).1
  rcases h with rfl | ⟨k, hk, hend, K, hK, hnop⟩
  · cases hI
  · refine ⟨⟨k, ⟨by omega, hk.lt, fun k' h1 h2 => hk.continues k' (Nat.zero_le k') h2, hk.ends⟩, hend, K, hK, hnop⟩, ?_⟩
    rcases Nat.lt_or_ge i k with hlt | hge
    · obtain ⟨I', -, hI', -, hnop', -⟩ := hk.continues i (Nat.zero_le i) hlt
      obtain rfl := Option.some.inj (hI.symm.trans hI')
      exact hnop'
    · obtain rfl : i = k := by omega
      obtain rfl := Option.some.inj (hI.symm.trans hK)
      exact hnop

/-- If the array is a run of NOPs, no target is left. -/
theorem buildTargets_onlyNOPs (norm : UInt8 → UInt8) (h : OnlyNOPs elf Is) :
    ∃ fuel, buildTargets elf Is fuel = some [] ∧ Canonical norm elf Is [] := by
  have hskip : ∀ {target i}, findInstr Is target = some i → skipNOPs elf Is (Is.length + 1) i = some none := by
    intro target i hi
    obtain ⟨I, hI, -⟩ := findInstr_some hi
    exact skipNOPs_runsOut (h.runsOut hI).1 (by omega)
  have hfold : ∀ entries : Targets, entries.foldlM (cleanUp elf Is (Is.length + 1)) [] = some [] := by
    intro entries
    induction entries with
    | nil => rfl
    | cons entry entries ih =>
        have hclean : cleanUp elf Is (Is.length + 1) [] entry = some [] := by
          rw [cleanUp]
          cases hi : findInstr Is entry.1 with
          | none => rfl
          | some i =>
              dsimp only
              rw [hskip hi]
              rfl
        rw [List.foldlM_cons, hclean]
        exact ih
  have hleads : ∀ target j, ¬LeadsTo elf Is target j := by
    rintro target j ⟨i, I, -, -, -, J, hJ, hnop⟩
    exact hnop (h.runsOut hJ).2
  refine ⟨Is.length + 1, congrArg (Option.map _) (hfold _), fun entry hentry => (List.not_mem_nil hentry).elim, ?_, ?_, ?_⟩
  · exact fun j J _ => ⟨none, fun entry _ => hleads entry.1 j, rfl⟩
  · exact fun target _ j J hgoes => absurd hgoes (hleads target j)
  · intro entry _ I hI _ hnop
    obtain ⟨i, hi⟩ := List.mem_iff_getElem?.mp hI
    exact absurd (h.runsOut hi).2 hnop

/-- **Recovered targets.** The first instruction is taken for an entry, and the pass that would make the kinds normal
works on the map that is thrown away. Apart from that the map is canonical if no target that leads to a gap shows. -/
theorem buildTargets_canonical_iff (hIs : Ascending Is) :
    ((∃ fuel T, buildTargets elf Is fuel = some T ∧ Canonical (normalize elf) elf Is T) ↔ OnlyNOPs elf Is) ∧
    ((∃ fuel T, buildTargets elf Is fuel = some T ∧ Canonical id elf Is T) ↔ GapsHidden elf Is) := by
  refine ⟨⟨?_, fun hnops => ?_⟩, fun ⟨_, _, h, hT⟩ => gapsHidden_of_canonical hIs h hT, buildTargets_canonical hIs⟩
  · rintro ⟨fuel, T, h, hT⟩
    cases Is with
    | nil => exact Or.inl rfl
    | cons I rest =>
        have hentry : INTPTR_MIN ≠ I.address := by
          have hpos := hIs.nonneg I List.mem_cons_self
          rw [INTPTR_MIN]
          omega
        have hi : findInstr (I :: rest) I.address = some 0 := hIs.findInstr_iff.mpr ⟨I, rfl, rfl⟩
        obtain ⟨kind, hfind, hbits⟩ := roughTargets_first elf rest hentry
        have hmem := OrderedMap.mem_of_find hfind
        obtain ⟨r, hr⟩ := foldlM_cleanUp_runs (buildTargets_eq h) hmem hi
        have hlen : 0 < (I :: rest).length := Nat.succ_pos _
        rcases sled_cases elf 0 hlen with ⟨j, hj⟩ | hout | hgap
        · -- the entry is moved to the end of the NOPs, and stays an entry
          obtain ⟨J, hJ, -⟩ := hj.2
          rcases Nat.lt_or_ge (j - 0) fuel with hlt | hle
          · have hland : Lands elf (I :: rest) fuel I.address j := ⟨0, hi, skipNOPs_moves hj hlt⟩
            have hgive := buildTargets_gathers hIs h hJ
            obtain ⟨kind', hfind'⟩ := hgive.exists_kind hmem hland
            obtain ⟨r', -, hmap⟩ := hT.moved j J hJ
            rw [hfind'] at hgive hmap
            obtain ⟨k, -, rfl⟩ := Option.map_eq_some_iff.mp hmap.symm
            exact absurd (normalized_normalize elf k) (not_normalized (or_eq_trans (hgive.carries hmem hland) hbits))
          · rw [skipNOPs_short hj.1 hle] at hr
            cases hr
        · exact Or.inr hout
        · rw [skipNOPs_loops hgap fuel] at hr
          cases hr
  · obtain ⟨fuel, h, hT⟩ := buildTargets_onlyNOPs (normalize elf) hnops
    exact ⟨fuel, [], h, hT⟩

/-- A file of NOPs, but for the instruction at 0x2000, which returns. -/
def sledELF : ELF where
  pic := true
  ibt := false
  data := []
  dynsyms := []
  syms := []
  sections := []
  getInstrInfo I := if I.address = 0x2000 then ⟨.RET, none⟩ else ⟨.NOP, none⟩

def sledInstrs : List Instr := [⟨0x1000, 1, 0, false, false, false⟩, ⟨0x2000, 1, 1, false, false, false⟩]

theorem sledInstrs_ascending : Ascending sledInstrs := ⟨by decide, by decide⟩

theorem sledInstrs_leadsToGap : LeadsToGap sledELF sledInstrs 0 := by
  refine ⟨0, _, _, .stop (by decide) ?_, rfl, rfl, by decide, by decide⟩
  rintro ⟨I, J, hI, hJ, -, hnext⟩
  obtain rfl := Option.some.inj hI
  obtain rfl := Option.some.inj hJ
  exact absurd hnext (by decide)

/-- A NOP before a gap: the map is never made. And a lone return is an entry, which is no kind of a target. -/
theorem buildTargets_sled : Ascending sledInstrs ∧
    (¬∃ fuel T, buildTargets sledELF sledInstrs fuel = some T) ∧
    buildTargets sledELF [⟨0x2000, 1, 1, false, false, false⟩] 1 = some [(0x2000, TARGET_ENTRY)] ∧
    ¬Normalized TARGET_ENTRY := by
  refine ⟨sledInstrs_ascending, ?_, by decide, by unfold Normalized; decide⟩
  rintro ⟨fuel, T, h⟩
  have hmem : ((0x1000 : Int), TARGET_ENTRY) ∈ roughTargets sledELF sledInstrs := by decide
  have hi : findInstr sledInstrs 0x1000 = some 0 := by decide
  obtain ⟨r, hr⟩ := foldlM_cleanUp_runs (buildTargets_eq h) hmem hi
  rw [skipNOPs_loops sledInstrs_leadsToGap fuel] at hr
  cases hr

/-- A NOP and, right behind it, the return. -/
def returnInstrs : List Instr := [⟨0x1FFF, 1, 0, false, false, false⟩, ⟨0x2000, 1, 1, false, false, false⟩]

theorem returnInstrs_ascending : Ascending returnInstrs := ⟨by decide, by decide⟩

theorem returnInstrs_no_gap (i : Nat) : ¬LeadsToGap sledELF returnInstrs i := by
  rintro ⟨k, I, J, hk, hI, hJ, -, hgap⟩
  obtain ⟨hlt, -⟩ := List.getElem?_eq_some_iff.mp hJ
  obtain rfl : k = 0 := Nat.lt_one_iff.mp (Nat.succ_lt_succ_iff.mp hlt)
  obtain rfl := Option.some.inj hI
  obtain rfl := Option.some.inj hJ
  exact hgap rfl

theorem buildTargets_canonical_iff_return :
    ((∃ fuel T, buildTargets sledELF returnInstrs fuel = some T ∧
        Canonical (normalize sledELF) sledELF returnInstrs T) ↔ OnlyNOPs sledELF returnInstrs) ∧
      ∃ fuel T, buildTargets sledELF returnInstrs fuel = some T ∧ Canonical id sledELF returnInstrs T := by
  have hiff := @buildTargets_canonical_iff sledELF returnInstrs returnInstrs_ascending
  exact ⟨hiff.1, hiff.2.mpr fun _ _ i _ _ _ hgap => absurd hgap (returnInstrs_no_gap i)⟩

end E9Tool
