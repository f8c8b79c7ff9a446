import E9Patch.BinPatchModel

/-!
What the generated code of the in-place editor does: the transfers of control that its jumps and calls are,
decoded from the instruction sets, and the no-operations that fill the rest of a range.
-/

namespace E9Patch
open Bytes

/-! ### Transfers of control -/

inductive TransferKind where
  | call
  | jump
  deriving DecidableEq, Repr

def signed26 (x : Int) : Int := (x + 2 ^ 25) % 2 ^ 26 - 2 ^ 25

/-- The unsigned word of 64 bits at an index. -/
def uword64 (bytes : List UInt8) (i : Nat) : Int := uword32 bytes i + 2 ^ 32 * uword32 bytes (i + 4)

/-- `ldr x16, #8` and `br x16`, before the address to go to. -/
def LDR_BR : List UInt8 := [0x50, 0x00, 0x00, 0x58, 0x00, 0x02, 0x1F, 0xD6]

/-- `jmpq *0x0(%rip)`, before the address to go to. -/
def JMP_RIP : List UInt8 := [0xFF, 0x25, 0x00, 0x00, 0x00, 0x00]

/-- `b` and `bl`, and a branch through a register that was just loaded. -/
def decodeAArch64 (bytes : List UInt8) (addr : Int) : Option (TransferKind × Int) :=
  if bytes.length < 4 then none
  else if uword32 bytes 0 / 2 ^ 26 = 0x05 then some (.jump, ptr (addr + 4 * signed26 (uword32 bytes 0)))
  else if uword32 bytes 0 / 2 ^ 26 = 0x25 then some (.call, ptr (addr + 4 * signed26 (uword32 bytes 0)))
  else if bytes.take 8 = LDR_BR ∧ 16 ≤ bytes.length then some (.jump, uword64 bytes 8)
  else none

/-- `jmpq` and `callq` with a displacement, and a jump through the word behind it. -/
def decodeX64 (bytes : List UInt8) (addr : Int) : Option (TransferKind × Int) :=
  if bytes.length < 5 then none
  else if byteAt bytes 0 = 0xE9 then some (.jump, ptr (addr + 5 + word32 bytes 1))
  else if byteAt bytes 0 = 0xE8 then some (.call, ptr (addr + 5 + word32 bytes 1))
  else if bytes.take 6 = JMP_RIP ∧ 14 ≤ bytes.length then some (.jump, uword64 bytes 6)
  else none

/-- The transfer of control that the bytes at an address start with. -/
def decodeTransfer (arch : Arch) (bytes : List UInt8) (addr : Int) : Option (TransferKind × Int) :=
  if arch = .AARCH64 then decodeAArch64 bytes addr else decodeX64 bytes addr

/-- A 64-bit word. -/
def IsWord (x : Int) : Prop := 0 ≤ x ∧ x < 2 ^ 64

/-- A branch from `src` can be to `dst`: those of AArch64 are to multiples of four. -/
def BranchReaches (arch : Arch) (src dst : Int) : Prop :=
  arch = .AARCH64 → branchRange (signed64 (dst - src)) = true → (dst - src) % 4 = 0

theorem uword64_le64 {x : Int} (hx : IsWord x) (rest : List UInt8) : uword64 (le64 x ++ rest) 0 = x := by
  obtain ⟨h0, h1⟩ := hx
  unfold uword64 le64
  have hlow : uword32 (le32 x ++ le32 (x / 2 ^ 32) ++ rest) 0 = x % 2 ^ 32 := by
    rw [List.append_assoc]
    exact uword32_le32 x _
  have hhigh : uword32 (le32 x ++ le32 (x / 2 ^ 32) ++ rest) (0 + 4) = x / 2 ^ 32 % 2 ^ 32 := by
    rw [List.append_assoc]
    exact (uword32_append_right (le32 x) (le32 (x / 2 ^ 32) ++ rest) 0).trans (uword32_le32 _ rest)
  rw [hlow, hhigh]
  omega

theorem uword64_append_right (as bs : List UInt8) : uword64 (as ++ bs) as.length = uword64 bs 0 := by
  unfold uword64
  have h0 := uword32_append_right as bs 0
  have h4 := uword32_append_right as bs 4
  rw [Nat.add_zero] at h0
  rw [h0, h4]

/-- The word of a branch, whose opcode is in the upper six bits. -/
theorem decode_branch {op offset src dst : Int} {rest : List UInt8} (hop : 0 ≤ op ∧ op < 2 ^ 6) (hdst : IsWord dst)
    (hoffset : offset = signed64 (dst - src)) (hrange : branchRange offset = true) :
    uword32 (le32 (op * 2 ^ 26 + imm26 offset) ++ rest) 0 / 2 ^ 26 = op ∧
      (ptr (src + 4 * signed26 (uword32 (le32 (op * 2 ^ 26 + imm26 offset) ++ rest) 0)) = dst ↔ (dst - src) % 4 = 0) := by
  obtain ⟨h0, h1⟩ := hdst
  have hrange : -(128 * 1024 * 1024) ≤ offset ∧ offset < 128 * 1024 * 1024 := by simpa [branchRange] using hrange
  have hdiv : offset.tdiv 4 * 4 + offset.tmod 4 = offset := Int.tdiv_mul_add_tmod offset 4
  have hmod := Int.tmod_lt_of_pos offset (show (0 : Int) < 4 by decide)
  have hmod' : -4 < offset.tmod 4 := by
    have := Int.lt_tmod_of_pos offset (show (0 : Int) < 4 by decide)
    omega
  rw [uword32_le32]
  unfold imm26 signed26 ptr
  unfold signed64 at hoffset
  generalize offset.tdiv 4 = q at hdiv ⊢
  generalize offset.tmod 4 = r at hdiv hmod hmod'
  constructor
  · omega
  · constructor
    · intro h
      omega
    · intro h
      omega

theorem decodeAArch64_branch {op offset src dst : Int} {rest : List UInt8} (hop : 0 ≤ op ∧ op < 2 ^ 6) (hdst : IsWord dst)
    (hoffset : offset = signed64 (dst - src)) (hrange : branchRange offset = true) {kind : TransferKind}
    (hkind : op = 0x05 ∧ kind = .jump ∨ op = 0x25 ∧ kind = .call) :
    decodeAArch64 (le32 (op * 2 ^ 26 + imm26 offset) ++ rest) src = some (kind, dst) ↔ (dst - src) % 4 = 0 := by
  obtain ⟨hdiv, htarget⟩ := @decode_branch op offset src dst rest hop hdst hoffset hrange
  have hlen : ¬(le32 (op * 2 ^ 26 + imm26 offset) ++ rest).length < 4 := by
    rw [List.length_append, le32_length]
    omega
  unfold decodeAArch64
  rw [if_neg hlen, hdiv, ← htarget]
  rcases hkind with ⟨rfl, rfl⟩ | ⟨rfl, rfl⟩
  · rw [if_pos rfl]
    simp
  · rw [if_neg (by decide), if_pos rfl]
    simp

theorem decodeX64_rel32 {opcode : UInt8} {src dst : Int} {rest : List UInt8} (hdst : IsWord dst)
    (hrange : fitsRel32 (signed64 (dst - (src + 5))) = true) {kind : TransferKind}
    (hkind : opcode = 0xE9 ∧ kind = .jump ∨ opcode = 0xE8 ∧ kind = .call) :
    decodeX64 (opcode :: le32 (signed64 (dst - (src + 5))) ++ rest) src = some (kind, dst) := by
  obtain ⟨h0, h1⟩ := hdst
  have hrange : -2 ^ 31 ≤ signed64 (dst - (src + 5)) ∧ signed64 (dst - (src + 5)) ≤ 2 ^ 31 - 1 := by
    simpa [fitsRel32] using hrange
  have hword : word32 (opcode :: le32 (signed64 (dst - (src + 5))) ++ rest) 1 = signed64 (dst - (src + 5)) := by
    have h := word32_append_right [opcode] (le32 (signed64 (dst - (src + 5))) ++ rest) 0
    rw [word32_le32, signed32_eq hrange.1 (by omega)] at h
    exact h
  have htarget : ptr (src + 5 + signed64 (dst - (src + 5))) = dst := by
    unfold ptr signed64
    omega
  have hlen : ¬(opcode :: le32 (signed64 (dst - (src + 5))) ++ rest).length < 5 := by
    simp only [List.cons_append, List.length_cons, List.length_append, le32_length]
    omega
  unfold decodeX64
  rw [if_neg hlen, hword, htarget]
  rcases hkind with ⟨rfl, rfl⟩ | ⟨rfl, rfl⟩
  · exact if_pos rfl
  · rw [if_neg (by simp)]
    exact if_pos rfl

theorem uword32_ldr_br (dst : Int) (rest : List UInt8) :
    uword32 (LDR_BR ++ le64 dst ++ rest) 0 = 0x58000050 := by
  simp only [uword32, LDR_BR, List.cons_append, byteAt_cons_zero, byteAt_cons_succ, Nat.zero_add]
  decide

theorem byteAt_jmp_rip (dst : Int) (rest : List UInt8) : byteAt (JMP_RIP ++ le64 dst ++ rest) 0 = 0xFF := rfl

/-- What a generated jump does. -/
theorem decode_gen_jmp {arch : Arch} {src dst : Int} (hdst : IsWord dst) (rest : List UInt8) :
    decodeTransfer arch (e9_binpatch_gen_jmp arch src dst ++ rest) src = some (.jump, dst) ↔ BranchReaches arch src dst := by
  unfold decodeTransfer e9_binpatch_gen_jmp BranchReaches
  by_cases harch : arch = .AARCH64
  · rw [if_pos harch, if_pos harch]
    simp only [harch, true_imp_iff]
    by_cases hrange : branchRange (signed64 (dst - src)) = true
    · rw [if_pos hrange]
      simp only [hrange, true_imp_iff]
      exact decodeAArch64_branch (show (0 : Int) ≤ 0x05 ∧ (0x05 : Int) < 2 ^ 6 by decide) hdst rfl hrange (Or.inl ⟨rfl, rfl⟩)
    · rw [if_neg hrange]
      simp only [hrange, false_imp_iff, iff_true, Bool.false_eq_true]
      have hword := uword64_append_right LDR_BR (le64 dst ++ rest)
      rw [uword64_le64 hdst] at hword
      change decodeAArch64 (LDR_BR ++ le64 dst ++ rest) src = _
      unfold decodeAArch64
      rw [uword32_ldr_br, if_neg (by simp [LDR_BR]), if_neg (by decide), if_neg (by decide),
        if_pos ⟨rfl, by simp only [LDR_BR, le64, List.length_append, List.length_cons, List.length_nil, le32_length]; omega⟩,
        List.append_assoc]
      exact congrArg (fun t => some (TransferKind.jump, t)) hword
  · rw [if_neg harch, if_neg harch]
    simp only [harch, false_imp_iff, iff_true]
    by_cases hrange : fitsRel32 (signed64 (dst - (src + 5))) = true
    · rw [if_pos hrange]
      exact decodeX64_rel32 hdst hrange (Or.inl ⟨rfl, rfl⟩)
    · rw [if_neg hrange]
      have hword := uword64_append_right JMP_RIP (le64 dst ++ rest)
      rw [uword64_le64 hdst] at hword
      change decodeX64 (JMP_RIP ++ le64 dst ++ rest) src = _
      unfold decodeX64
      rw [byteAt_jmp_rip, if_neg (by simp [JMP_RIP, le64]), if_neg (by decide), if_neg (by decide),
        if_pos ⟨rfl, by simp only [JMP_RIP, le64, List.length_append, List.length_cons, List.length_nil, le32_length]; omega⟩,
        List.append_assoc]
      exact congrArg (fun t => some (TransferKind.jump, t)) hword

/-- What a generated call does that is no larger than a branch. -/
theorem decode_gen_call {arch : Arch} {src dst : Int} (hdst : IsWord dst) (rest : List UInt8)
    (hsize : (e9_binpatch_gen_call arch src dst).length ≤ if arch = .AARCH64 then 4 else 5) :
    decodeTransfer arch (e9_binpatch_gen_call arch src dst ++ rest) src = some (.call, dst) ↔ BranchReaches arch src dst := by
  unfold decodeTransfer BranchReaches
  unfold e9_binpatch_gen_call at hsize ⊢
  by_cases harch : arch = .AARCH64
  · rw [if_pos harch, if_pos harch]
    rw [if_pos harch, if_pos harch] at hsize
    simp only [harch, true_imp_iff]
    by_cases hrange : branchRange (signed64 (dst - src)) = true
    · rw [if_pos hrange]
      simp only [hrange, true_imp_iff]
      exact decodeAArch64_branch (show (0 : Int) ≤ 0x25 ∧ (0x25 : Int) < 2 ^ 6 by decide) hdst rfl hrange
        (Or.inr ⟨rfl, rfl⟩)
    · rw [if_neg hrange] at hsize
      exact absurd hsize (by simp [le64])
  · rw [if_neg harch, if_neg harch]
    rw [if_neg harch, if_neg harch] at hsize
    simp only [harch, false_imp_iff, iff_true]
    by_cases hrange : fitsRel32 (signed64 (dst - (src + 5))) = true
    · rw [if_pos hrange]
      exact decodeX64_rel32 hdst hrange (Or.inr ⟨rfl, rfl⟩)
    · rw [if_neg hrange] at hsize
      exact absurd hsize (by simp [le64])

/-! ### No-operations -/

/-- One no-operation: the word of AArch64, or one of those of one to nine bytes. -/
def IsNop (arch : Arch) (bytes : List UInt8) : Prop :=
  if arch = .AARCH64 then bytes = NOP_AARCH64 else ∃ n, 1 ≤ n ∧ n ≤ 9 ∧ bytes = nopSeq n

/-- No-operations one after another. -/
inductive NopRun (arch : Arch) : List UInt8 → Prop where
  | nil : NopRun arch []
  | cons {nop rest : List UInt8} (head : IsNop arch nop) (tail : NopRun arch rest) : NopRun arch (nop ++ rest)

theorem nopSeq_length {n : Nat} (h1 : 1 ≤ n) (h9 : n ≤ 9) : (nopSeq n).length = n := by
  have hall : ∀ m < 10, 1 ≤ m → (nopSeq m).length = m := by decide
  exact hall n (by omega) h1

theorem genNops_length {fuel n : Nat} (h : n ≤ fuel) : (genNops fuel n).length = n := by
  induction fuel generalizing n with
  | zero => simp only [genNops, List.length_nil]; omega
  | succ fuel ih =>
      unfold genNops
      split
      · rename_i hzero
        rw [hzero, List.length_nil]
      · rename_i hpos
        rw [List.length_append, nopSeq_length (by omega) (by omega), ih (by omega)]
        omega

theorem genNops_run {arch : Arch} (harch : arch ≠ .AARCH64) (fuel n : Nat) : NopRun arch (genNops fuel n) := by
  induction fuel generalizing n with
  | zero => exact .nil
  | succ fuel ih =>
      unfold genNops
      split
      · exact .nil
      · rename_i hpos
        refine .cons ?_ (ih _)
        unfold IsNop
        rw [if_neg harch]
        exact ⟨min n 9, by omega, by omega, rfl⟩

theorem replicate_nop_length (n : Nat) : (List.replicate n NOP_AARCH64).flatten.length = n * 4 := by
  induction n with
  | zero => rfl
  | succ n ih =>
      rw [List.replicate_succ, List.flatten_cons, List.length_append, ih]
      simp only [NOP_AARCH64, List.length_cons, List.length_nil]
      omega

theorem gen_nops_length (arch : Arch) (size : Nat) :
    (e9_binpatch_gen_nops arch size).length = if arch = .AARCH64 then size / 4 * 4 else size := by
  unfold e9_binpatch_gen_nops
  split
  · exact replicate_nop_length _
  · exact genNops_length (Nat.le_refl size)

/-- An area is filled, unless it is no whole number of AArch64 instructions. -/
theorem gen_nops_full {arch : Arch} {size : Nat} :
    (e9_binpatch_gen_nops arch size).length = size ↔ (arch = .AARCH64 → size % 4 = 0) := by
  rw [gen_nops_length]
  split
  · rename_i harch
    simp only [harch, true_imp_iff]
    omega
  · rename_i harch
    simp only [harch, false_imp_iff]

theorem gen_nops_length_le (arch : Arch) (size : Nat) : (e9_binpatch_gen_nops arch size).length ≤ size := by
  rw [gen_nops_length]
  split <;> omega

theorem gen_nops_run (arch : Arch) (size : Nat) : NopRun arch (e9_binpatch_gen_nops arch size) := by
  unfold e9_binpatch_gen_nops
  split
  · rename_i harch
    induction size / 4 with
    | zero => exact .nil
    | succ n ih =>
        rw [List.replicate_succ, List.flatten_cons]
        refine .cons ?_ ih
        unfold IsNop
        rw [if_pos harch]
  · rename_i harch
    exact genNops_run harch _ _

theorem NopRun.length_mod {arch : Arch} {bytes : List UInt8} (h : NopRun arch bytes) (harch : arch = .AARCH64) :
    bytes.length % 4 = 0 := by
  induction h with
  | nil => rfl
  | cons head tail ih =>
      unfold IsNop at head
      rw [if_pos harch] at head
      rw [List.length_append, head]
      simp only [NOP_AARCH64, List.length_cons, List.length_nil]
      omega

end E9Patch
