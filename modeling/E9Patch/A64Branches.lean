import E9Patch.A64Encoding
import E9Patch.AnalysisDisasm

/-!
What the disassembler of the analysis engine makes of the branches of AArch64. Each of its tests stands for a
class of the encoding. The tests for CBZ and TBZ take in the bit that tells these from CBNZ and TBNZ.
-/

namespace E9Patch
open Reader Bytes A64

/-- The category of a branch. -/
def branchCategory : Branch → InsnCategory
  | .B => .JUMP
  | .BL => .CALL
  | .RET => .RET
  | _ => .COND_JUMP

/-- The categories of the branches. -/
def isBranch : InsnCategory → Bool
  | .CALL | .JUMP | .COND_JUMP | .RET => true
  | _ => false

/-- A branch gets its category and its target, and no other word has the category of one. -/
structure ClassifiesRight (addr : Nat) (w : BitVec 32) (insn : Insn) : Prop where
  branch : ∀ b : Branch, b.Is w → insn.category = branchCategory b ∧ ∀ t, b.target addr w = some t → (insn.target : Int) = t
  only : isBranch insn.category = true → ∃ b : Branch, b.Is w

/-- The disassembler gives one instruction of four bytes, and classifies it right. -/
def DisassemblesRight (d : Block) (bin : E9Binary) (addr : Nat) (w : BitVec 32) : Prop :=
  ∃ insn, e9_disasm_instruction d bin addr = .ok (some insn) ∧ insn.address = addr ∧ insn.size = 4 ∧
    ClassifiesRight addr w insn

/-! ### The tests -/

variable {w : BitVec 32} {addr : Nat}

theorem test_BL : w &&& A64_MASK_BL = A64_OP_BL ↔ Branch.Is .BL w :=
  Tests.iff ⟨by decide, by decide, by decide, by decide⟩ w

theorem test_B : w &&& A64_MASK_B = A64_OP_B ↔ Branch.Is .B w :=
  Tests.iff ⟨by decide, by decide, by decide, by decide⟩ w

theorem test_RET : w &&& A64_MASK_RET = A64_OP_RET ↔ Branch.Is .RET w :=
  Tests.iff ⟨by decide, by decide, by decide, by decide⟩ w

theorem test_BCOND : w &&& A64_MASK_BCOND = A64_OP_BCOND ↔ Branch.Is .BCond w :=
  Tests.iff ⟨by decide, by decide, by decide, by decide⟩ w

theorem test_CBZ : w &&& A64_MASK_CBZ = A64_OP_CBZ ↔ Branch.Is .CBZ w :=
  Tests.iff ⟨by decide, by decide, by decide, by decide⟩ w

theorem test_TBZ : w &&& A64_MASK_TBZ = A64_OP_TBZ ↔ Branch.Is .TBZ w :=
  Tests.iff ⟨by decide, by decide, by decide, by decide⟩ w

/-- A signed field of words, added to the address. -/
theorem a64Target_field {n : Nat} {low sign top : BitVec 32} (hn : 0 < n) (hfit : n ≤ 26)
    (hlow : ∀ i < 32, low.getLsbD i = decide (i < n)) (hsign : sign = BitVec.twoPow 32 (n - 1))
    (htop : ∀ i < 32, top.getLsbD i = decide (n ≤ i)) (w : BitVec 32) (s addr : Nat) :
    (a64Target addr (a64Imm w s low sign top) : Int) = ((addr : Int) + (w.extractLsb' s n).toInt * 4) % 2 ^ 64 := by
  have himm : a64Imm w s low sign top = (w.extractLsb' s n).signExtend 32 :=
    signExtend_field hn (by omega) hlow hsign htop w s
  unfold a64Target addrPlus
  rw [himm, signExtend_shift hfit]
  omega

theorem target_imm26 (w : BitVec 32) (addr : Nat) :
    (a64Target addr (a64Imm26 w) : Int) = ((addr : Int) + (w.extractLsb' 0 26).toInt * 4) % 2 ^ 64 :=
  a64Target_field (by decide) (by decide) (by decide) (by decide) (by decide) w 0 addr

theorem target_imm19 (w : BitVec 32) (addr : Nat) :
    (a64Target addr (a64Imm19 w) : Int) = ((addr : Int) + (w.extractLsb' 5 19).toInt * 4) % 2 ^ 64 :=
  a64Target_field (by decide) (by decide) (by decide) (by decide) (by decide) w 5 addr

theorem target_imm14 (w : BitVec 32) (addr : Nat) :
    (a64Target addr (a64Imm14 w) : Int) = ((addr : Int) + (w.extractLsb' 5 14).toInt * 4) % 2 ^ 64 :=
  a64Target_field (by decide) (by decide) (by decide) (by decide) (by decide) w 5 addr

/-! ### The chain of the tests -/

/-- The classes that have a test. -/
def Tested (b : Branch) : Prop := b ≠ .CBNZ ∧ b ≠ .TBNZ

theorem categorize_tested {b : Branch} (htested : Tested b) (hb : b.Is w) :
    (a64Categorize addr w).category = branchCategory b ∧
      ∀ t, b.target addr w = some t → ((a64Categorize addr w).target : Int) = t := by
  have hne : ∀ b', b' ≠ b → ¬Branch.Is b' w := fun b' hne hb' => hne (hb'.unique hb)
  unfold a64Categorize
  simp only [test_BL, test_B, test_RET, test_BCOND, test_CBZ, test_TBZ]
  cases b with
  | BL =>
      rw [if_pos hb]
      refine ⟨rfl, ?_⟩
      rintro t ⟨⟩
      exact target_imm26 w addr
  | B =>
      rw [if_neg (hne .BL (by decide)), if_pos hb]
      refine ⟨rfl, ?_⟩
      rintro t ⟨⟩
      exact target_imm26 w addr
  | RET =>
      rw [if_neg (hne .BL (by decide)), if_neg (hne .B (by decide)), if_pos hb]
      exact ⟨rfl, nofun⟩
  | BCond =>
      rw [if_neg (hne .BL (by decide)), if_neg (hne .B (by decide)), if_neg (hne .RET (by decide)), if_pos hb]
      refine ⟨rfl, ?_⟩
      rintro t ⟨⟩
      exact target_imm19 w addr
  | CBZ =>
      rw [if_neg (hne .BL (by decide)), if_neg (hne .B (by decide)), if_neg (hne .RET (by decide)),
        if_neg (hne .BCond (by decide)), if_pos hb]
      refine ⟨rfl, ?_⟩
      rintro t ⟨⟩
      exact target_imm19 w addr
  | TBZ =>
      rw [if_neg (hne .BL (by decide)), if_neg (hne .B (by decide)), if_neg (hne .RET (by decide)),
        if_neg (hne .BCond (by decide)), if_neg (hne .CBZ (by decide)), if_pos hb]
      refine ⟨rfl, ?_⟩
      rintro t ⟨⟩
      exact target_imm14 w addr
  | CBNZ => exact absurd rfl htested.1
  | TBNZ => exact absurd rfl htested.2

theorem isBranch_ite {c : Prop} [Decidable c] {x y : Insn} (hx : isBranch x.category = false)
    (hy : isBranch y.category = false) : isBranch (if c then x else y).category = false := by
  split
  · exact hx
  · exact hy

/-- What no test takes for a branch has the category of none. -/
theorem categorize_untested (h : ∀ b, Tested b → ¬Branch.Is b w) :
    isBranch (a64Categorize addr w).category = false := by
  unfold a64Categorize
  simp only [test_BL, test_B, test_RET, test_BCOND, test_CBZ, test_TBZ]
  rw [if_neg (h .BL (by unfold Tested; decide)), if_neg (h .B (by unfold Tested; decide)),
    if_neg (h .RET (by unfold Tested; decide)), if_neg (h .BCond (by unfold Tested; decide)),
    if_neg (h .CBZ (by unfold Tested; decide)), if_neg (h .TBZ (by unfold Tested; decide))]
  repeat' apply isBranch_ite
  all_goals first | rfl | cases w.getLsbD 22 <;> rfl

theorem categorize_right_iff (addr : Nat) (w : BitVec 32) :
    ClassifiesRight addr w (a64Categorize addr w) ↔ ¬Branch.Is .CBNZ w ∧ ¬Branch.Is .TBNZ w := by
  -- a class without a test has the category of no branch
  have hmissed : ∀ b, ¬Tested b → Branch.Is b w → ¬ClassifiesRight addr w (a64Categorize addr w) := by
    intro b hb his h
    have hnone : isBranch (a64Categorize addr w).category = false := by
      refine categorize_untested ?_
      intro b' hb' his'
      rw [his'.unique his] at hb'
      exact hb hb'
    rw [(h.branch b his).1] at hnone
    cases b <;> cases hnone
  constructor
  · intro h
    exact ⟨fun his => hmissed .CBNZ (fun ht => ht.1 rfl) his h, fun his => hmissed .TBNZ (fun ht => ht.2 rfl) his h⟩
  · rintro ⟨hcbnz, htbnz⟩
    have htested : ∀ b, Branch.Is b w → Tested b := by
      intro b his
      constructor
      · rintro rfl
        exact hcbnz his
      · rintro rfl
        exact htbnz his
    refine ⟨fun b his => categorize_tested (htested b his) his, ?_⟩
    intro hcategory
    by_contra hnone
    rw [categorize_untested fun b _ his => hnone ⟨b, his⟩] at hcategory
    cases hcategory

/-- A word of an AArch64 binary is disassembled right at every address, unless it is CBNZ or TBNZ. -/
theorem a64_branches_iff {d : Block} {bin : E9Binary} (harch : bin.arch = .AARCH64)
    (hhas : d.Has (disasmOffset bin addr) 4) (hword : d.word (disasmOffset bin addr) 4 = w.toNat) :
    DisassemblesRight d bin addr w ↔ ¬Branch.Is .CBNZ w ∧ ¬Branch.Is .TBNZ w := by
  have hsize := d.size_lt
  have hin : ¬(disasmOffset bin addr + 4) % 2 ^ 64 > d.size := by
    have h := hhas.2
    omega
  have hdisasm : e9_disasm_instruction d bin addr = .ok (some (a64Categorize addr w)) := by
    unfold e9_disasm_instruction disasm_aarch64
    rw [harch]
    dsimp only
    rw [if_neg hin, read_ok hhas, ok_bind, hword, BitVec.ofNat_toNat, BitVec.setWidth_eq]
  rw [← categorize_right_iff addr w]
  unfold DisassemblesRight
  rw [hdisasm]
  constructor
  · rintro ⟨insn, heq, -, -, h⟩
    cases heq
    exact h
  · intro h
    exact ⟨_, rfl, (a64Categorize_decoded addr w).address, (a64Categorize_decoded addr w).size, h⟩

/-- A binary of one instruction, with the byte that tells it. -/
def oneWord (b : UInt8) : Block := ⟨[0, 0, 0, b], show 4 < 2 ^ 63 by decide⟩

/-- `cbz w0, .` at address 0. -/
theorem cbz_disassembled :
    DisassemblesRight (oneWord 0x34) { E9Binary.zero with arch := .AARCH64 } 0 0x34000000 :=
  (a64_branches_iff rfl (by decide) (by decide)).mpr ⟨by decide, by decide⟩

/-- `cbnz w0, .` is no conditional jump. -/
theorem cbnz_missed : ¬∀ (d : Block) (bin : E9Binary) (addr : Nat) (w : BitVec 32), bin.arch = .AARCH64 →
    d.Has (disasmOffset bin addr) 4 → d.word (disasmOffset bin addr) 4 = w.toNat → DisassemblesRight d bin addr w := by
  intro h
  obtain ⟨insn, hinsn, -, -, hright⟩ :=
    h (oneWord 0x35) { E9Binary.zero with arch := .AARCH64 } 0 0x35000000 rfl (by decide) (by decide)
  have hcategory := (hright.branch .CBNZ (by decide)).1
  have hother : insn.category = .OTHER := by
    have heq : some insn = some (a64Categorize 0 0x35000000) := by
      refine Except.ok.inj (hinsn.symm.trans ?_)
      decide
    rw [Option.some.inj heq]
    decide
  rw [hother] at hcategory
  cases hcategory

end E9Patch
