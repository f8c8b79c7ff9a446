import E9Patch.BinPatchModel
import E9Patch.X86Length

/-!
The size of an instruction that `e9_binpatch_insn_size_at` finds, against the opcode maps. Which opcodes have a
ModRM byte and how large their immediates are is in part not what the source takes them for; a SIB byte without
a base has a displacement that it leaves out; and where it takes the byte behind the opcode wrongly for a ModRM
byte, the size is still right for some bytes, and at the end of the file.
-/

namespace E9Patch
open Reader Bytes X86

set_option maxRecDepth 20000

/-! ### What the source takes an instruction for -/

/-- Whether there is a ModRM byte, and the size of the immediate. -/
structure OpcodeForm where
  modRM : Bool
  imm : Nat
  deriving DecidableEq, Repr

/-- The tables of the source. -/
def opcodeForm : Opcode → OpcodeForm
  | .one op =>
    match simpleOpcode op with
    | some n => ⟨false, n⟩
    | none => ⟨opcodeHasModRM op, opcodeImmSize op⟩
  | .two op => if 0x80 ≤ op ∧ op ≤ 0x8F then ⟨false, 4⟩ else ⟨true, 0⟩
  | .three3A _ => ⟨true, 1⟩
  | _ => ⟨true, 0⟩

/-- The SIB byte and the displacement that it takes a ModRM byte to ask for; the SIB byte only if there is one
more byte. -/
def tailSize (modrm : UInt8) (more : Bool) : Nat :=
  let mod := (modrm >>> 6) &&& 3
  let rm := modrm &&& 7
  (if mod ≠ 3 ∧ rm = 4 ∧ more then 1 else 0) +
    if mod = 0 ∧ rm = 5 then 4 else if mod = 1 then 1 else if mod = 2 then 4 else 0

/-- A SIB byte without a base register, which has a displacement of 32 bits. -/
def NoBase (operand : List UInt8) : Prop := byteAt operand 0 &&& 0xC7 = 0x04 ∧ byteAt operand 1 &&& 0x07 = 0x05

instance (operand : List UInt8) : Decidable (NoBase operand) := inferInstanceAs (Decidable (_ ∧ _))

/-- Where the bytes behind the opcode start. -/
def behindAt (x : Instruction) : Nat := x.pres.length + x.opcode.bytes.length

/-- Whether there is a byte behind the one that follows the opcode. -/
def moreBytes (x : Instruction) (max_len : Nat) : Bool := behindAt x + 1 < max_len

/-- The operand is one that the source knows: it has a base, and the ModRM byte of a move of a control register
asks for nothing. -/
def OperandKnown (x : Instruction) (max_len : Nat) : Prop :=
  match x.opcode with
  | .two op =>
    if isMoveControl op then tailSize (byteAt x.operand 0) (moreBytes x max_len) = 0 else ¬NoBase x.operand
  | _ => ¬NoBase x.operand

/-- The instructions whose size is found within `max_len` bytes. With an operand, the tables have to be right and
the operand one that is known. Without one, the size of the immediate has to be right; where the tables have a
ModRM byte, the first byte of the immediate has to ask for the rest of it, or there must be no byte at all. -/
def SizeKnown (x : Instruction) (max_len : Nat) : Prop :=
  let form := opcodeForm x.opcode
  if x.operand ≠ [] then form.modRM = true ∧ x.imm.length = form.imm ∧ OperandKnown x max_len
  else if form.modRM then
    match x.imm with
    | [] => x.bytes.length = max_len ∧ form.imm = 0
    | b :: _ => x.imm.length = 1 + tailSize b (moreBytes x max_len) + form.imm
  else x.imm.length = form.imm

/-- The bytes are in the file. -/
structure InsnPlaced (d : Block) (offset : Int) (bytes : List UInt8) : Prop where
  inside : offset + bytes.length ≤ d.size
  get : ∀ k < bytes.length, d.get (offset + (k : Nat)) = byteAt bytes k

/-! ### Prefixes and opcode -/

theorem isLegacyPrefix_eq : ∀ b, isLegacyPrefix b = isLegacy b := by decide

theorem skipPrefixes_eq {d : Block} {code : Int} {max_len : Nat} {legacy : List UInt8} {n pos : Nat}
    (hlegacy : ∀ b ∈ legacy, isLegacy b = true) (hget : ∀ k < legacy.length, d.get (code + (pos + k : Nat)) = byteAt legacy k)
    (hnext : isLegacy (d.get (code + (pos + legacy.length : Nat))) = false) (hmax : pos + legacy.length < max_len)
    (hn : legacy.length ≤ n) : skipPrefixes d code max_len n pos = pos + legacy.length := by
  induction legacy generalizing n pos with
  | nil =>
      cases n with
      | zero => rfl
      | succ n =>
          rw [skipPrefixes, isLegacyPrefix_eq, if_neg]
          · rfl
          · rintro ⟨-, h⟩
            exact Bool.false_ne_true (hnext.symm.trans h)
  | cons b legacy ih =>
      cases n with
      | zero => cases hn
      | succ n =>
          rw [List.length_cons] at hmax hnext hn hget
          have hfirst : d.get (code + (pos : Nat)) = b := hget 0 (Nat.succ_pos _)
          have hshift : pos + 1 + legacy.length = pos + (legacy.length + 1) := by omega
          have hrest : skipPrefixes d code max_len n (pos + 1) = pos + 1 + legacy.length := by
            refine ih (fun c hc => hlegacy c (List.mem_cons_of_mem b hc)) (fun k hk => ?_) (hshift ▸ hnext) (hshift ▸ hmax)
              (Nat.le_of_succ_le_succ hn)
            have h := hget (k + 1) (Nat.succ_lt_succ hk)
            rw [show pos + (k + 1) = pos + 1 + k by omega] at h
            exact h
          rw [skipPrefixes, isLegacyPrefix_eq, hfirst, if_pos ⟨by omega, hlegacy b List.mem_cons_self⟩, hrest, hshift]
          rfl

theorem skipModRM_eq (d : Block) (code : Int) {max_len pos : Nat} (h : pos < max_len) :
    skipModRM d code max_len pos = pos + 1 + tailSize (d.get (code + (pos : Nat))) (decide (pos + 1 < max_len)) := by
  unfold skipModRM tailSize
  rw [if_pos h]
  simp only [decide_eq_true_eq]
  split_ifs <;> omega

theorem bytes_length (x : Instruction) :
    x.bytes.length = x.pres.length + (x.opcode.bytes.length + x.behind.length) := by
  rw [Instruction.bytes, List.length_append, List.length_append]

section
variable {d : Block} {code : Int} {max_len : Nat} (x : Instruction)
  (hget : ∀ k < x.bytes.length, d.get (code + (k : Nat)) = byteAt x.bytes k)
include hget

theorem get_opcode {k : Nat} (hk : k < x.opcode.bytes.length) :
    d.get (code + (x.pres.length + k : Nat)) = byteAt x.opcode.bytes k := by
  rw [hget _ (by rw [bytes_length x]; omega), Instruction.bytes, byteAt_append_right, byteAt_append_left hk]

theorem get_behind {k : Nat} (hk : k < x.behind.length) :
    d.get (code + (behindAt x + k : Nat)) = byteAt x.behind k := by
  rw [hget _ (by rw [bytes_length x, behindAt]; omega), Instruction.bytes, behindAt, Nat.add_assoc,
    byteAt_append_right, byteAt_append_right]

theorem get_pres {k : Nat} (hk : k < x.pres.length) : d.get (code + (k : Nat)) = byteAt x.pres k := by
  rw [hget _ (by rw [bytes_length x]; omega), Instruction.bytes, byteAt_append_left hk]

/-- The loop over the prefixes and the test for REX stop at the opcode. -/
theorem prefixes_skipped (hmax : x.bytes.length ≤ max_len) :
    (if skipPrefixes d code max_len max_len 0 < max_len ∧
        d.get (code + (skipPrefixes d code max_len max_len 0 : Nat)) &&& 0xF0 = 0x40 then
      skipPrefixes d code max_len max_len 0 + 1 else skipPrefixes d code max_len max_len 0) = x.pres.length := by
  obtain ⟨b, rest, hbytes, hlegacy, hrex, -⟩ := x.takes.first
  have hlen := bytes_length x
  have hopcode : x.opcode.bytes.length = rest.length + 1 := by
    rw [hbytes]
    rfl
  have hb : d.get (code + (x.pres.length : Nat)) = b := by
    have h := get_opcode x hget (k := 0) (by omega)
    rw [hbytes] at h
    exact h
  have hpres : x.pres.length = x.legacy.length + x.rex.toList.length := List.length_append
  have hfront : ∀ k < x.legacy.length, d.get (code + (0 + k : Nat)) = byteAt x.legacy k := fun k hk => by
    rw [Nat.zero_add, get_pres x hget (by omega), Instruction.pres, byteAt_append_left hk]
  have hnot : ∀ b, isREX b = true → isLegacy b = false := by decide
  cases hcase : x.rex with
  | none =>
      rw [hcase, Option.toList_none, List.length_nil, Nat.add_zero] at hpres
      have hskip : skipPrefixes d code max_len max_len 0 = 0 + x.legacy.length :=
        skipPrefixes_eq x.legacy_valid hfront (by rw [Nat.zero_add, ← hpres, hb]; exact hlegacy) (by omega) (by omega)
      rw [hskip, Nat.zero_add, ← hpres, hb, if_neg fun h => Bool.false_ne_true (hrex.symm.trans (decide_eq_true h.2))]
  | some r =>
      rw [hcase, Option.toList_some, List.length_singleton] at hpres
      have hr : d.get (code + (x.legacy.length : Nat)) = r := by
        have h := byteAt_append_right x.legacy x.rex.toList 0
        rw [Nat.add_zero, hcase] at h
        rw [get_pres x hget (by omega), Instruction.pres, hcase, h]
        rfl
      have hvalid : isREX r = true := x.rex_valid r (hcase ▸ rfl)
      have hskip : skipPrefixes d code max_len max_len 0 = 0 + x.legacy.length :=
        skipPrefixes_eq x.legacy_valid hfront (by rw [Nat.zero_add, hr]; exact hnot r hvalid) (by omega) (by omega)
      rw [hskip, Nat.zero_add, hr, if_pos ⟨by omega, of_decide_eq_true hvalid⟩, hpres]

/-- Behind the prefixes the size is that of the opcode, of what the tables have behind it, and of the operand that
there seems to be. -/
theorem insnSize_opcode (hmax : x.bytes.length ≤ max_len) :
    insnSize d code max_len =
      (if (opcodeForm x.opcode).modRM then skipModRM d code max_len (behindAt x) else behindAt x) +
        (opcodeForm x.opcode).imm := by
  obtain ⟨b, rest, hbytes, -, -, hescape⟩ := x.takes.first
  have hlen := bytes_length x
  have hskip := prefixes_skipped x hget hmax
  have hat := fun k => get_opcode x hget (k := k)
  have hfirst : d.get (code + (x.pres.length : Nat)) = b := by
    have h := hat 0 (by rw [hbytes]; exact Nat.succ_pos _)
    rw [hbytes] at h
    exact h
  have hroom : ¬x.pres.length ≥ max_len := by
    rw [hbytes, List.length_cons] at hlen
    omega
  unfold insnSize
  simp only [hskip]
  rw [if_neg hroom, hfirst]
  unfold behindAt
  have htakes := x.takes
  cases hop : x.opcode with
  | one op =>
      rw [hop] at hbytes hescape
      obtain ⟨rfl, -⟩ := List.cons.inj hbytes
      rw [if_neg fun h => (hescape.mp h) op rfl, opcodeForm]
      cases simpleOpcode op <;> rfl
  | two op =>
      rw [hop] at hescape hat hlen htakes
      have hsize : (Opcode.two op).bytes.length = 2 := rfl
      have hsecond : d.get (code + (x.pres.length + 1 : Nat)) = op := hat 1 Nat.one_lt_two
      unfold twoByteSize
      rw [if_pos (hescape.mpr nofun), if_neg (by omega), hsecond]
      dsimp only
      rw [if_neg htakes.not_escape, opcodeForm]
      by_cases hjcc : 0x80 ≤ op ∧ op ≤ 0x8F
      · rw [if_pos hjcc, if_pos hjcc]
        rfl
      · rw [if_neg hjcc, if_neg hjcc]
        rfl
  | three38 op =>
      rw [hop] at hescape hat hlen
      have hsize : (Opcode.three38 op).bytes.length = 3 := rfl
      have hsecond : d.get (code + (x.pres.length + 1 : Nat)) = 0x38 := hat 1 (by omega)
      unfold twoByteSize
      rw [if_pos (hescape.mpr nofun), if_neg (by omega), hsecond]
      dsimp only
      rw [if_pos (Or.inl rfl), if_neg (by omega)]
      rfl
  | three3A op =>
      rw [hop] at hescape hat hlen
      have hsize : (Opcode.three3A op).bytes.length = 3 := rfl
      have hsecond : d.get (code + (x.pres.length + 1 : Nat)) = 0x3a := hat 1 (by omega)
      unfold twoByteSize
      rw [if_pos (hescape.mpr nofun), if_neg (by omega), hsecond]
      dsimp only
      rw [if_pos (Or.inr rfl), if_neg (by omega)]
      rfl
  | vex2 p op | vex3 p q op | evex p q r op =>
      rw [hop] at htakes
      nomatch htakes

end

/-! ### Operands -/

/-- What is left out of an operand. -/
theorem operandSize_eq (modrm sib : UInt8) :
    operandSize modrm sib =
      1 + tailSize modrm true + if modrm &&& 0xC7 = 0x04 ∧ sib &&& 0x07 = 0x05 then 4 else 0 := by
  unfold operandSize tailSize
  by_cases hbase : sib &&& 0x07 = 0x05
  · simp only [hbase, and_true]
    revert modrm
    decide
  · simp only [hbase, and_false, if_false]
    revert modrm
    decide

/-- Only a SIB byte is not skipped for want of bytes. -/
theorem tailSize_more : ∀ modrm : UInt8, tailSize modrm false = tailSize modrm true ∨ 1 ≤ tailSize modrm true := by
  decide

/-- The size of an operand is found unless it has no base. -/
theorem operand_length_iff {operand : List UInt8} (h : IsOperand operand) {more : Bool}
    (hmore : 2 ≤ operand.length → more = true) :
    1 + tailSize (byteAt operand 0) more ≤ operand.length ∧
      (1 + tailSize (byteAt operand 0) more = operand.length ↔ ¬NoBase operand) := by
  have hsize := operandSize_eq (byteAt operand 0) (byteAt operand 1)
  rw [← h] at hsize
  have htail : tailSize (byteAt operand 0) more = tailSize (byteAt operand 0) true := by
    cases more with
    | true => rfl
    | false =>
        rcases tailSize_more (byteAt operand 0) with h' | h'
        · exact h'
        · exact absurd (hmore (by omega)) Bool.false_ne_true
  rw [htail]
  unfold NoBase
  split_ifs at hsize with hbase
  · exact ⟨by omega, iff_of_false (by omega) (not_not.mpr hbase)⟩
  · exact ⟨by omega, iff_of_true (by omega) hbase⟩

/-- Of an opcode with an operand the source takes no larger an immediate, and with none that it knows no more than
the opcode. -/
theorem form_imm {pres : List UInt8} {o : Opcode} {operand : List UInt8} {n : Nat} (h : o.Takes pres operand n)
    (hne : operand ≠ []) : (opcodeForm o).imm ≤ n ∧ ((opcodeForm o).modRM = false → (opcodeForm o).imm = 0) := by
  have hone : ∀ op, modRMOne op = true → (opcodeForm (.one op)).imm = 0 := by decide
  have htwo : ∀ op, modRMTwo op = true ∨ isMoveControl op = true → (opcodeForm (.two op)).imm = 0 := by decide
  cases h with
  | directOne _ => exact absurd rfl hne
  | directTwo _ => exact absurd rfl hne
  | one hop _ =>
      rw [hone _ hop]
      exact ⟨Nat.zero_le _, fun _ => rfl⟩
  | two hop _ _ =>
      rw [htwo _ (Or.inl hop)]
      exact ⟨Nat.zero_le _, fun _ => rfl⟩
  | control hop =>
      rw [htwo _ (Or.inr hop)]
      exact ⟨Nat.zero_le _, fun _ => rfl⟩
  | three38 _ => exact ⟨Nat.zero_le _, fun _ => rfl⟩
  | three3A _ => exact ⟨Nat.le_refl _, nofun⟩

/-- An operand is one of the usual ones, or that of a move of a control register. -/
theorem operand_cases {x : Instruction} (hne : x.operand ≠ []) (max_len : Nat) :
    IsOperand x.operand ∧ (OperandKnown x max_len ↔ ¬NoBase x.operand) ∨
      x.operand.length = 1 ∧ x.imm.length = 0 ∧ (opcodeForm x.opcode).imm = 0 ∧
        (OperandKnown x max_len ↔ tailSize (byteAt x.operand 0) (moreBytes x max_len) = 0) := by
  have hmove : ∀ op, modRMTwo op = true → isMoveControl op = false := by decide
  have htwo : ∀ op, isMoveControl op = true → (opcodeForm (.two op)).imm = 0 := by decide
  have htakes := x.takes
  unfold OperandKnown
  generalize moreBytes x max_len = more
  generalize x.opcode = o at htakes ⊢
  generalize x.operand = operand at htakes hne ⊢
  generalize x.imm.length = n at htakes ⊢
  cases htakes with
  | directOne _ => exact absurd rfl hne
  | directTwo _ => exact absurd rfl hne
  | one hop hoperand => exact Or.inl ⟨hoperand, Iff.rfl⟩
  | two hop hnot hoperand =>
      refine Or.inl ⟨hoperand, ?_⟩
      simp only [hmove _ hop, Bool.false_eq_true, if_false]
  | control hop =>
      refine Or.inr ⟨rfl, rfl, htwo _ hop, ?_⟩
      simp only [hop, if_true]
  | three38 hoperand => exact Or.inl ⟨hoperand, Iff.rfl⟩
  | three3A hoperand => exact Or.inl ⟨hoperand, Iff.rfl⟩

/-- The sizes of an operand and an immediate are found together exactly if each of them is. -/
theorem operand_found_iff {x : Instruction} {max_len : Nat} (hmax : x.bytes.length ≤ max_len) (hne : x.operand ≠ []) :
    1 + tailSize (byteAt x.operand 0) (moreBytes x max_len) + (opcodeForm x.opcode).imm =
        x.operand.length + x.imm.length ↔
      x.imm.length = (opcodeForm x.opcode).imm ∧ OperandKnown x max_len := by
  have himm := (form_imm x.takes hne).1
  have hbytes := bytes_length x
  rw [Instruction.behind, List.length_append] at hbytes
  rcases operand_cases hne max_len with ⟨hoperand, hknown⟩ | ⟨hone, hzero, hform, hknown⟩
  · have hmore : 2 ≤ x.operand.length → moreBytes x max_len = true := fun h =>
      decide_eq_true (by unfold behindAt; omega)
    obtain ⟨hle, hiff⟩ := operand_length_iff hoperand hmore
    rw [hknown, ← hiff]
    omega
  · rw [hknown]
    omega

/-- The opcodes with an operand for which the tables are wrong: they have no immediate or no ModRM byte there. -/
def wrongOne : List UInt8 :=
  [0x69, 0x6B, 0x80, 0x81, 0x83, 0xC0, 0xC1, 0xC6, 0xC7, 0xD0, 0xD1, 0xD2, 0xD3, 0xD8, 0xD9, 0xDA, 0xDB, 0xDC, 0xDD,
    0xDE, 0xDF, 0xF6, 0xF7]

def wrongTwo : List UInt8 := [0x70, 0x71, 0x72, 0x73, 0xA4, 0xAC, 0xBA, 0xC2, 0xC4, 0xC5, 0xC6]

/-- Of the other opcodes with an operand the tables are right, whatever the prefixes. -/
theorem tables_right (pres : List UInt8) (reg op : UInt8) :
    (modRMOne op = true → ((opcodeForm (.one op)).modRM = true ∧
      (Opcode.one op).immSize pres reg = (opcodeForm (.one op)).imm ↔ op ∉ wrongOne)) ∧
    (modRMTwo op = true → op ≠ 0x0F → ((opcodeForm (.two op)).modRM = true ∧
      immTwo op = (opcodeForm (.two op)).imm ↔ op ∉ wrongTwo)) := by
  have hz : immZ pres ≠ 0 := by
    unfold immZ
    split_ifs <;> decide
  have htwo : ∀ op, modRMTwo op = true → op ≠ 0x0F → ((opcodeForm (.two op)).modRM = true ∧
      immTwo op = (opcodeForm (.two op)).imm ↔ op ∉ wrongTwo) := by decide
  have himm : ∀ op, modRMOne op = true → (opcodeForm (.one op)).imm = 0 := by decide
  have hnone : ∀ op, modRMOne op = true → (opcodeForm (.one op)).modRM = false → op ∈ wrongOne := by decide
  have hright : ∀ op, modRMOne op = true → (opcodeForm (.one op)).modRM = true → op ≠ 0xf6 ∧ op ≠ 0xf7 ∧
      (op ∈ wrongOne ↔ (op = 0x6b ∨ op = 0x80 ∨ op = 0x83 ∨ op = 0xc0 ∨ op = 0xc1 ∨ op = 0xc6) ∨
        op = 0x69 ∨ op = 0x81 ∨ op = 0xc7) := by decide
  refine ⟨fun hop => ?_, htwo op⟩
  cases hform : (opcodeForm (.one op)).modRM with
  | false => exact iff_of_false (fun h => Bool.false_ne_true h.1) (not_not.mpr (hnone op hop hform))
  | true =>
      obtain ⟨h6, h7, hwrong⟩ := hright op hop hform
      rw [himm op hop, hwrong, Opcode.immSize]
      split_ifs with h1 h2 h3 h4
      · exact iff_of_false (fun h => nomatch h.2) (not_not.mpr (Or.inl h1))
      · exact iff_of_false (fun h => hz h.2) (not_not.mpr (Or.inr h2))
      · exact absurd h3.1 h6
      · exact absurd h4.1 h7
      · exact iff_of_true ⟨rfl, rfl⟩ fun h => h.elim h1 h2

/-- What the tables lead to is the size of the instruction exactly if the size is known. -/
theorem sizeKnown_iff {d : Block} {code : Int} {max_len : Nat} (x : Instruction)
    (hget : ∀ k < x.bytes.length, d.get (code + (k : Nat)) = byteAt x.bytes k) (hmax : x.bytes.length ≤ max_len) :
    insnSize d code max_len = x.bytes.length ↔ SizeKnown x max_len := by
  have hbytes := bytes_length x
  have hbehind : x.behind.length = x.operand.length + x.imm.length := List.length_append
  rw [insnSize_opcode x hget hmax, SizeKnown]
  by_cases hne : x.operand ≠ []
  · rw [if_pos hne]
    have hpos : 0 < x.operand.length := List.length_pos_iff.mpr hne
    have hfirst : d.get (code + (behindAt x : Nat)) = byteAt x.operand 0 := by
      rw [← Nat.add_zero (behindAt x), get_behind x hget (by omega), Instruction.behind, byteAt_append_left hpos]
    cases hform : (opcodeForm x.opcode).modRM with
    | false =>
        have hzero := (form_imm x.takes hne).2 hform
        refine iff_of_false ?_ fun h => Bool.false_ne_true h.1
        rw [if_neg Bool.false_ne_true, behindAt]
        omega
    | true =>
        have hroom : behindAt x < max_len := by
          unfold behindAt
          omega
        have hfound := operand_found_iff hmax hne
        rw [if_pos rfl, skipModRM_eq d code hroom, hfirst]
        refine Iff.trans ?_ (hfound.trans ⟨fun h => ⟨rfl, h⟩, fun h => h.2⟩)
        unfold moreBytes
        unfold behindAt at hroom ⊢
        omega
  · have hnil : x.operand = [] := not_not.mp hne
    have himm : x.behind = x.imm := by rw [Instruction.behind, hnil, List.nil_append]
    rw [himm] at hbytes
    rw [if_neg hne]
    cases hform : (opcodeForm x.opcode).modRM with
    | false =>
        rw [if_neg Bool.false_ne_true, if_neg Bool.false_ne_true, behindAt]
        omega
    | true =>
        rw [if_pos rfl, if_pos rfl]
        cases hcase : x.imm with
        | nil =>
            have hend : x.bytes.length = behindAt x := by
              rw [hbytes, hcase, behindAt]
              rfl
            dsimp only
            by_cases hroom : behindAt x < max_len
            · rw [skipModRM_eq d code hroom]
              exact iff_of_false (by omega) fun h => by omega
            · unfold skipModRM
              rw [if_neg hroom]
              omega
        | cons b rest =>
            have hlen : x.imm.length = rest.length + 1 := by
              rw [hcase]
              rfl
            have hroom : behindAt x < max_len := by
              unfold behindAt
              omega
            have hfirst : d.get (code + (behindAt x : Nat)) = b := by
              rw [← Nat.add_zero (behindAt x), get_behind x hget (by omega), himm, hcase]
              rfl
            rw [skipModRM_eq d code hroom, hfirst]
            simp only [List.length_cons]
            unfold moreBytes
            unfold behindAt at hroom ⊢
            omega

/-- **The size of an instruction.** Of an instruction that lies wholly in the file at an offset other than zero,
the size is found exactly if it is known. -/
theorem insn_size_iff {d : Block} {bin : E9Binary} {addr : Int} (x : Instruction) (harch : bin.arch = .X86_64)
    (hoffset : e9_binpatch_vaddr_to_offset d bin addr ≠ 0)
    (hplaced : InsnPlaced d (e9_binpatch_vaddr_to_offset d bin addr) x.bytes) :
    e9_binpatch_insn_size_at d bin addr = x.bytes.length ↔
      SizeKnown x (min (d.size - e9_binpatch_vaddr_to_offset d bin addr).toNat 15) := by
  obtain ⟨b, rest, hfirst, -⟩ := x.takes.first
  have hpos := bytes_length x
  rw [hfirst, List.length_cons] at hpos
  have hinside := hplaced.inside
  have hshort := x.bytes_length_le
  unfold e9_binpatch_insn_size_at
  dsimp only
  rw [if_neg (by omega), if_neg (by rw [harch]; decide)]
  exact sizeKnown_iff x hplaced.get (by omega)

/-! ### Samples -/

/-- A file with one byte in front of an instruction. -/
def codeBlock (bytes : List UInt8) (h : bytes.length ≤ 15) : Block where
  bytes := 0x90 :: bytes
  bounded := by
    rw [List.length_cons]
    omega

def codeBinary : E9Binary := { E9Binary.zero with arch := .X86_64, format := .RAW }

/-- `sub $8,%rsp`, with a sign-extended immediate. -/
def subRsp : Instruction where
  legacy := []
  rex := some 0x48
  opcode := .one 0x83
  operand := [0xEC]
  imm := [0x08]
  legacy_valid := nofun
  rex_valid := fun b hb => Option.some.inj hb ▸ (by decide : isREX 0x48 = true)
  takes := .one_of (by decide) (by decide) (by decide)
  short_enough := by decide

/-- `mov %rsp,%rbp`. -/
def movRbp : Instruction where
  legacy := []
  rex := some 0x48
  opcode := .one 0x89
  operand := [0xE5]
  imm := []
  legacy_valid := nofun
  rex_valid := fun b hb => Option.some.inj hb ▸ (by decide : isREX 0x48 = true)
  takes := .one_of (by decide) (by decide) (by decide)
  short_enough := by decide

theorem codeBlock_placed (bytes : List UInt8) (h : bytes.length ≤ 15) :
    InsnPlaced (codeBlock bytes h) 1 bytes := by
  refine ⟨?_, fun k _ => ?_⟩
  · show (1 : Int) + bytes.length ≤ ((0x90 :: bytes).length : Nat)
    rw [List.length_cons]
    omega
  · show (0x90 :: bytes).getD (1 + (k : Int)).toNat 0 = byteAt bytes k
    rw [show (1 + (k : Int)).toNat = k + 1 by omega]
    rfl

theorem movRbp_size :
    e9_binpatch_insn_size_at (codeBlock movRbp.bytes movRbp.bytes_length_le) codeBinary 1 = movRbp.bytes.length := by
  have hoffset : e9_binpatch_vaddr_to_offset (codeBlock movRbp.bytes movRbp.bytes_length_le) codeBinary 1 = 1 := by
    decide
  refine (insn_size_iff movRbp rfl (by rw [hoffset]; decide)
    (by rw [hoffset]; exact codeBlock_placed _ _)).mpr ?_
  rw [SizeKnown, if_pos (by decide)]
  exact ⟨by decide, by decide, show ¬NoBase movRbp.operand by decide⟩

/-- The immediate of `sub` is left out. -/
theorem subRsp_short : ¬∀ (d : Block) (bin : E9Binary) (addr : Int) (x : Instruction), bin.arch = .X86_64 →
    e9_binpatch_vaddr_to_offset d bin addr ≠ 0 → InsnPlaced d (e9_binpatch_vaddr_to_offset d bin addr) x.bytes →
      e9_binpatch_insn_size_at d bin addr = x.bytes.length := by
  intro h
  have hoffset : e9_binpatch_vaddr_to_offset (codeBlock subRsp.bytes subRsp.bytes_length_le) codeBinary 1 = 1 := by
    decide
  have hsize := h (codeBlock subRsp.bytes subRsp.bytes_length_le) codeBinary 1 subRsp rfl (by rw [hoffset]; decide)
    (by rw [hoffset]; exact codeBlock_placed _ _)
  have hcode : e9_binpatch_insn_size_at (codeBlock subRsp.bytes subRsp.bytes_length_le) codeBinary 1 = 3 := by
    decide
  rw [hcode] at hsize
  exact absurd hsize (by decide)

end E9Patch
