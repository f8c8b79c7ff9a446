import E9Patch.BinPatchCode

/-!
The jumps and calls that the in-place editor generates, run one instruction after another: what a generated
sequence of instructions does up to the first transfer of control, and after the return from a call. Besides
the branches these use one register, `x16` or `%rax`, and what they load is a part of the sequence.
-/

namespace E9Patch
open Bytes

/-- What one instruction does: go on at another index of the sequence, with a value in the register, or leave
it, for a call with an address to return to. -/
inductive Effect where
  | next (k : Nat) (x : Int)
  | jump (target : Int)
  | call (target ret : Int)
  deriving DecidableEq, Repr

def signed19 (x : Int) : Int := (x + 2 ^ 18) % 2 ^ 19 - 2 ^ 18

/-- The word of 64 bits at an index, if it is a part of the sequence. -/
def literal (code : List UInt8) (i : Int) : Option Int :=
  if 0 ≤ i ∧ i + 8 ≤ code.length then some (uword64 code i.toNat) else none

/-- `b`, `bl`, `ldr x16, label`, `br x16` and `blr x16`, at index `k` of the sequence at `src`. -/
def stepAArch64 (code : List UInt8) (src : Int) (k : Nat) (x : Int) : Option Effect :=
  if code.length < k + 4 then none
  else if uword32 code k / 2 ^ 26 = 0x05 then some (.jump (ptr (src + k + 4 * signed26 (uword32 code k))))
  else if uword32 code k / 2 ^ 26 = 0x25 then
    some (.call (ptr (src + k + 4 * signed26 (uword32 code k))) (ptr (src + k + 4)))
  else if uword32 code k / 2 ^ 24 = 0x58 ∧ uword32 code k % 2 ^ 5 = 16 then
    (literal code (k + 4 * signed19 (uword32 code k / 2 ^ 5))).map fun word => .next (k + 4) word
  else if uword32 code k = 0xD61F0200 then some (.jump x)
  else if uword32 code k = 0xD63F0200 then some (.call x (ptr (src + k + 4)))
  else none

/-- `jmpq` and `callq` with a displacement, `jmpq *label(%rip)`, `movabs $value, %rax` and `callq *%rax`. -/
def stepX64 (code : List UInt8) (src : Int) (k : Nat) (x : Int) : Option Effect :=
  if byteAt code k = 0xE9 ∧ k + 5 ≤ code.length then some (.jump (ptr (src + k + 5 + word32 code (k + 1))))
  else if byteAt code k = 0xE8 ∧ k + 5 ≤ code.length then
    some (.call (ptr (src + k + 5 + word32 code (k + 1))) (ptr (src + k + 5)))
  else if byteAt code k = 0xFF ∧ byteAt code (k + 1) = 0x25 ∧ k + 6 ≤ code.length then
    (literal code (k + 6 + word32 code (k + 2))).map .jump
  else if byteAt code k = 0x48 ∧ byteAt code (k + 1) = 0xB8 then
    (literal code (k + 2)).map fun word => .next (k + 10) word
  else if byteAt code k = 0xFF ∧ byteAt code (k + 1) = 0xD0 ∧ k + 2 ≤ code.length then
    some (.call x (ptr (src + k + 2)))
  else none

def stepBranch (arch : Arch) : List UInt8 → Int → Nat → Int → Option Effect :=
  if arch = .AARCH64 then stepAArch64 else stepX64

/-- The first transfer of control from index `k` on, after at most `fuel` instructions. -/
def transferFrom (arch : Arch) (code : List UInt8) (src : Int) : Nat → Nat → Int → Option Effect
  | 0, _, _ => none
  | fuel + 1, k, x =>
    match stepBranch arch code src k x with
    | some (.next k' x') => transferFrom arch code src fuel k' x'
    | effect => effect

/-- From an address in the sequence at `src` control gets to the first byte behind it. -/
def GoesOn (arch : Arch) (code : List UInt8) (src ret : Int) : Prop :=
  ret = ptr (src + code.length) ∨
    ∃ k : Nat, ret = ptr (src + k) ∧ ∀ x, transferFrom arch code src code.length k x = some (.jump (ptr (src + code.length)))

/-- The sequence at `src` is a jump to `dst`, whatever is in the register. -/
def JumpsTo (arch : Arch) (code : List UInt8) (src dst : Int) : Prop :=
  ∀ x, transferFrom arch code src code.length 0 x = some (.jump dst)

/-- The sequence at `src` is a call of `dst` that returns behind it. -/
def CallsTo (arch : Arch) (code : List UInt8) (src dst : Int) : Prop :=
  ∃ ret, (∀ x, transferFrom arch code src code.length 0 x = some (.call dst ret)) ∧ GoesOn arch code src ret

/-- The size that `e9_binpatch_gen_jmp` returns. -/
def genJmpSize (arch : Arch) (src dst : Int) : Nat :=
  if arch = .AARCH64 then if branchRange (signed64 (dst - src)) then 4 else 16
  else if fitsRel32 (signed64 (dst - (src + 5))) then 5 else 14

/-- The size that `e9_binpatch_gen_call` returns. -/
def genCallSize (arch : Arch) (src dst : Int) : Nat :=
  if arch = .AARCH64 then if branchRange (signed64 (dst - src)) then 4 else 20
  else if fitsRel32 (signed64 (dst - (src + 5))) then 5 else 12

/-- The functions return how many bytes they write. -/
theorem genJmp_length (arch : Arch) (src dst : Int) : (e9_binpatch_gen_jmp arch src dst).length = genJmpSize arch src dst := by
  unfold e9_binpatch_gen_jmp genJmpSize
  dsimp only
  split_ifs <;> rfl

theorem genCall_length (arch : Arch) (src dst : Int) :
    (e9_binpatch_gen_call arch src dst).length = genCallSize arch src dst := by
  unfold e9_binpatch_gen_call genCallSize
  dsimp only
  split_ifs <;> rfl

/-! ### AArch64 -/

section
variable {src dst : Int}

/-- The first instruction of a sequence is the transfer. -/
theorem transfer_first {arch : Arch} {code : List UInt8} {k : Nat} {x : Int} {effect : Effect}
    (hstep : stepBranch arch code src k x = some effect) (hleaves : ∀ k' x', effect ≠ .next k' x') {fuel : Nat}
    (hfuel : 0 < fuel) : transferFrom arch code src fuel k x = some effect := by
  obtain ⟨fuel, rfl⟩ := Nat.exists_eq_succ_of_ne_zero (show fuel ≠ 0 by omega)
  unfold transferFrom
  rw [hstep]
  cases effect with
  | next k' x' => exact absurd rfl (hleaves k' x')
  | jump target => rfl
  | call target ret => rfl

/-- The second one is, behind one that goes on. -/
theorem transfer_second {arch : Arch} {code : List UInt8} {k k' : Nat} {x x' : Int} {effect : Effect}
    (hstep : stepBranch arch code src k x = some (.next k' x')) (hstep' : stepBranch arch code src k' x' = some effect)
    (hleaves : ∀ k x, effect ≠ .next k x) {fuel : Nat} (hfuel : 1 < fuel) :
    transferFrom arch code src fuel k x = some effect := by
  obtain ⟨fuel, rfl⟩ := Nat.exists_eq_succ_of_ne_zero (show fuel ≠ 0 by omega)
  unfold transferFrom
  rw [hstep]
  exact transfer_first hstep' hleaves (by omega)

/-- A branch in range. -/
theorem stepAArch64_branch {op : Int} (hop : op = 0x05 ∨ op = 0x25) (hdst : IsWord dst)
    (hrange : branchRange (signed64 (dst - src)) = true) (halign : (dst - src) % 4 = 0) (x : Int) :
    stepAArch64 (le32 (op * 2 ^ 26 + imm26 (signed64 (dst - src)))) src 0 x =
      some (if op = 0x05 then .jump dst else .call dst (ptr (src + 4))) := by
  have hrange6 : 0 ≤ op ∧ op < 2 ^ 6 := by omega
  have hdecode := @decode_branch op (signed64 (dst - src)) src dst [] hrange6 hdst rfl hrange
  rw [List.append_nil] at hdecode
  obtain ⟨hdiv, htarget⟩ := hdecode
  have htarget := htarget.mpr halign
  unfold stepAArch64
  rw [if_neg (by simp), hdiv]
  simp only [Int.natCast_zero, Int.add_zero, htarget]
  rcases hop with rfl | rfl
  · rfl
  · rfl

theorem literal_at {code : List UInt8} {i : Nat} (h : i + 8 ≤ code.length) :
    literal code i = some (uword64 code i) := by
  rw [literal, if_pos (by omega), Int.toNat_natCast]

theorem uword32_append_left {as : List UInt8} (bs : List UInt8) {i : Nat} (h : i + 4 ≤ as.length) :
    uword32 (as ++ bs) i = uword32 as i := by
  unfold uword32
  rw [byteAt_append_left (by omega), byteAt_append_left (by omega), byteAt_append_left (by omega),
    byteAt_append_left (by omega)]

/-- `ldr x16, #8`, at the start of a sequence that is long enough. -/
theorem stepAArch64_load {code : List UInt8} (hword : uword32 code 0 = 0x58000050) (hlen : 16 ≤ code.length) (x : Int) :
    stepAArch64 code src 0 x = some (.next 4 (uword64 code 8)) := by
  have hindex : ((0 : Nat) : Int) + 4 * signed19 (0x58000050 / 2 ^ 5) = 8 := by decide
  unfold stepAArch64
  rw [hword, if_neg (by omega), if_neg (by decide), if_neg (by decide), if_pos (by decide), hindex]
  exact congrArg (Option.map fun word => Effect.next 4 word) (literal_at (i := 8) (by omega))

/-- A far jump goes through the word behind it. -/
theorem far_jump_AArch64 (hdst : IsWord dst) (x : Int) :
    transferFrom .AARCH64 (LDR_BR ++ le64 dst) src 16 0 x = some (.jump dst) := by
  have hlen : (LDR_BR ++ le64 dst).length = 16 := rfl
  have hword : uword64 (LDR_BR ++ le64 dst) 8 = dst := by
    have h := uword64_le64 hdst []
    rw [List.append_nil] at h
    exact (uword64_append_right LDR_BR (le64 dst)).trans h
  have hload : stepAArch64 (LDR_BR ++ le64 dst) src 0 x = some (.next 4 dst) := by
    rw [stepAArch64_load (uword32_append_left (le64 dst) (show 0 + 4 ≤ LDR_BR.length by decide)) (by omega), hword]
  have hbr : stepAArch64 (LDR_BR ++ le64 dst) src 4 dst = some (.jump dst) := by
    have hop : uword32 (LDR_BR ++ le64 dst) 4 = 0xD61F0200 := uword32_append_left (le64 dst) (by decide)
    unfold stepAArch64
    rw [hop, if_neg (by omega), if_neg (by decide), if_neg (by decide), if_neg (by decide), if_pos rfl]
  have hstep : stepBranch .AARCH64 = stepAArch64 := if_pos rfl
  exact transfer_second (hstep ▸ hload) (hstep ▸ hbr) (fun k x => by simp) (by decide)

/-- `ldr x16, #8`, `blr x16` and `b #12`, before the address to call. -/
def LDR_BLR : List UInt8 := [0x50, 0x00, 0x00, 0x58, 0x00, 0x02, 0x3F, 0xD6, 0x03, 0x00, 0x00, 0x14]

/-- A far call takes the word for its target that begins with the branch behind the call. -/
theorem far_call_AArch64 (x : Int) : transferFrom .AARCH64 (LDR_BLR ++ le64 dst) src 20 0 x =
    some (.call (0x14000003 + 2 ^ 32 * (dst % 2 ^ 32)) (ptr (src + 8))) := by
  have hlen : (LDR_BLR ++ le64 dst).length = 20 := rfl
  have hword : uword64 (LDR_BLR ++ le64 dst) 8 = 0x14000003 + 2 ^ 32 * (dst % 2 ^ 32) := by
    have hlow : uword32 (LDR_BLR ++ le64 dst) 8 = 0x14000003 := uword32_append_left (le64 dst) (by decide)
    have hhigh : uword32 (LDR_BLR ++ le64 dst) (8 + 4) = dst % 2 ^ 32 :=
      (uword32_append_right LDR_BLR (le64 dst) 0).trans (uword32_le32 dst _)
    rw [uword64, hlow, hhigh]
  have hload : stepAArch64 (LDR_BLR ++ le64 dst) src 0 x = some (.next 4 (0x14000003 + 2 ^ 32 * (dst % 2 ^ 32))) := by
    rw [stepAArch64_load (uword32_append_left (le64 dst) (show 0 + 4 ≤ LDR_BLR.length by decide)) (by omega), hword]
  have hblr : stepAArch64 (LDR_BLR ++ le64 dst) src 4 (0x14000003 + 2 ^ 32 * (dst % 2 ^ 32)) =
      some (.call (0x14000003 + 2 ^ 32 * (dst % 2 ^ 32)) (ptr (src + 8))) := by
    have hop : uword32 (LDR_BLR ++ le64 dst) 4 = 0xD63F0200 := uword32_append_left (le64 dst) (by decide)
    have hret : ptr (src + ((4 : Nat) : Int) + 4) = ptr (src + 8) := by
      rw [Int.add_assoc]
      rfl
    unfold stepAArch64
    rw [hop, if_neg (by omega), if_neg (by decide), if_neg (by decide), if_neg (by decide), if_neg (by decide),
      if_pos rfl, hret]
  have hstep : stepBranch .AARCH64 = stepAArch64 := if_pos rfl
  exact transfer_second (hstep ▸ hload) (hstep ▸ hblr) (fun k x => by simp) (by decide)

/-! ### x86-64 -/

/-- A jump or a call with a displacement. -/
theorem stepX64_rel32 {opcode : UInt8} (hop : opcode = 0xE9 ∨ opcode = 0xE8) (hdst : IsWord dst)
    (hrange : fitsRel32 (signed64 (dst - (src + 5))) = true) (x : Int) :
    stepX64 (opcode :: le32 (signed64 (dst - (src + 5)))) src 0 x =
      some (if opcode = 0xE9 then .jump dst else .call dst (ptr (src + 5))) := by
  obtain ⟨h0, h1⟩ := hdst
  have hrange : -2 ^ 31 ≤ signed64 (dst - (src + 5)) ∧ signed64 (dst - (src + 5)) ≤ 2 ^ 31 - 1 := by
    simpa [fitsRel32] using hrange
  have hword : word32 (opcode :: le32 (signed64 (dst - (src + 5)))) (0 + 1) = signed64 (dst - (src + 5)) := by
    have h := word32_append_right [opcode] (le32 (signed64 (dst - (src + 5))) ++ []) 0
    rw [word32_le32, signed32_eq hrange.1 (by omega)] at h
    exact h
  have htarget : ptr (src + ((0 : Nat) : Int) + 5 + signed64 (dst - (src + 5))) = dst := by
    unfold ptr signed64
    omega
  unfold stepX64
  rw [hword, htarget]
  simp only [byteAt_cons_zero, List.length_cons, le32_length, Int.natCast_zero, Int.add_zero]
  rcases hop with rfl | rfl
  · rfl
  · rfl

/-- A far jump goes through the word behind it. -/
theorem far_jump_X64 (hdst : IsWord dst) (x : Int) :
    stepX64 (JMP_RIP ++ le64 dst) src 0 x = some (.jump dst) := by
  have hlen : (JMP_RIP ++ le64 dst).length = 14 := rfl
  have hword : uword64 (JMP_RIP ++ le64 dst) 6 = dst := by
    have h := uword64_le64 hdst []
    rw [List.append_nil] at h
    exact (uword64_append_right JMP_RIP (le64 dst)).trans h
  have hdisp : word32 (JMP_RIP ++ le64 dst) (0 + 2) = 0 := by
    rw [word32, uword32_append_left (le64 dst) (by decide)]
    decide
  have hbyte : byteAt (JMP_RIP ++ le64 dst) 0 = 0xFF := rfl
  have hbyte' : byteAt (JMP_RIP ++ le64 dst) (0 + 1) = 0x25 := rfl
  have hindex : ((0 : Nat) : Int) + 6 + 0 = 6 := by decide
  have hload : literal (JMP_RIP ++ le64 dst) 6 = some dst :=
    (literal_at (i := 6) (by omega)).trans (congrArg some hword)
  unfold stepX64
  rw [hbyte, hbyte', hdisp, if_neg fun h => absurd h.1 (by decide), if_neg fun h => absurd h.1 (by decide),
    if_pos ⟨rfl, rfl, by omega⟩, hindex, hload]
  rfl

/-- `movabs $value, %rax`, the value of which is the address to call. -/
def MOV_RAX : List UInt8 := [0x48, 0xB8]

/-- A far call goes through the register. -/
theorem far_call_X64 {arch : Arch} (harch : arch ≠ .AARCH64) (hdst : IsWord dst) (x : Int) :
    transferFrom arch (MOV_RAX ++ le64 dst ++ [0xFF, 0xD0]) src 12 0 x = some (.call dst (ptr (src + 12))) := by
  have hlen : (MOV_RAX ++ le64 dst ++ [0xFF, 0xD0]).length = 12 := rfl
  have hmov : stepX64 (MOV_RAX ++ le64 dst ++ [0xFF, 0xD0]) src 0 x = some (.next 10 dst) := by
    have hbyte : byteAt (MOV_RAX ++ le64 dst ++ [0xFF, 0xD0]) 0 = 0x48 := rfl
    have hbyte' : byteAt (MOV_RAX ++ le64 dst ++ [0xFF, 0xD0]) (0 + 1) = 0xB8 := rfl
    have hword : uword64 (MOV_RAX ++ le64 dst ++ [0xFF, 0xD0]) 2 = dst := by
      rw [List.append_assoc]
      exact (uword64_append_right MOV_RAX (le64 dst ++ [0xFF, 0xD0])).trans (uword64_le64 hdst _)
    have hload : literal (MOV_RAX ++ le64 dst ++ [0xFF, 0xD0]) 2 = some dst :=
      (literal_at (i := 2) (by omega)).trans (congrArg some hword)
    have hindex : ((0 : Nat) : Int) + 2 = 2 := by decide
    unfold stepX64
    rw [hbyte, hbyte', if_neg fun h => absurd h.1 (by decide), if_neg fun h => absurd h.1 (by decide),
      if_neg fun h => absurd h.1 (by decide), if_pos ⟨rfl, rfl⟩, hindex, hload]
    rfl
  have hcall : stepX64 (MOV_RAX ++ le64 dst ++ [0xFF, 0xD0]) src 10 dst = some (.call dst (ptr (src + 12))) := by
    have hbyte : byteAt (MOV_RAX ++ le64 dst ++ [0xFF, 0xD0]) 10 = 0xFF :=
      byteAt_append_right (MOV_RAX ++ le64 dst) [0xFF, 0xD0] 0
    have hbyte' : byteAt (MOV_RAX ++ le64 dst ++ [0xFF, 0xD0]) (10 + 1) = 0xD0 :=
      byteAt_append_right (MOV_RAX ++ le64 dst) [0xFF, 0xD0] 1
    have hret : ptr (src + ((10 : Nat) : Int) + 2) = ptr (src + 12) := by
      rw [Int.add_assoc]
      rfl
    unfold stepX64
    rw [hbyte, hbyte', if_neg fun h => absurd h.1 (by decide), if_neg fun h => absurd h.1 (by decide),
      if_neg fun h => absurd h.2.1 (by decide), if_neg fun h => absurd h.1 (by decide), if_pos ⟨rfl, rfl, by omega⟩, hret]
  have hstep : stepBranch arch = stepX64 := if_neg harch
  exact transfer_second (hstep ▸ hmov) (hstep ▸ hcall) (fun k x => by simp) (by decide)

end

/-! ### What is generated -/

section
variable {arch : Arch} {src dst : Int}

/-- Instructions of AArch64 are at multiples of four. -/
def Aligned (arch : Arch) (addr : Int) : Prop := arch = .AARCH64 → addr % 4 = 0

/-- Every generated jump reaches its target. -/
theorem gen_jmp_jumps (hdst : IsWord dst) (hsrc4 : Aligned arch src) (hdst4 : Aligned arch dst) :
    JumpsTo arch (e9_binpatch_gen_jmp arch src dst) src dst := by
  intro x
  unfold e9_binpatch_gen_jmp
  dsimp only
  by_cases harch : arch = .AARCH64
  · have halign : (dst - src) % 4 = 0 := by
      have h1 := hsrc4 harch
      have h2 := hdst4 harch
      omega
    rw [if_pos harch, harch]
    by_cases hrange : branchRange (signed64 (dst - src)) = true
    · rw [if_pos hrange]
      have hstep : stepBranch .AARCH64 (le32 (0x14000000 + imm26 (signed64 (dst - src)))) src 0 x = some (.jump dst) :=
        @stepAArch64_branch src dst 0x05 (Or.inl rfl) hdst hrange halign x
      exact transfer_first hstep (fun k x => by simp) (Nat.succ_pos _)
    · rw [if_neg hrange]
      exact far_jump_AArch64 hdst x
  · have hstep : stepBranch arch = stepX64 := if_neg harch
    rw [if_neg harch]
    by_cases hrange : fitsRel32 (signed64 (dst - (src + 5))) = true
    · rw [if_pos hrange]
      exact transfer_first (hstep ▸ @stepX64_rel32 src dst 0xE9 (Or.inl rfl) hdst hrange x) (fun k x => by simp)
        (Nat.succ_pos _)
    · rw [if_neg hrange]
      exact transfer_first (hstep ▸ far_jump_X64 hdst x) (fun k x => by simp) (Nat.succ_pos _)

/-- A generated call is one of its target, unless it is far and for AArch64. -/
theorem gen_call_calls (hdst : IsWord dst) (hsrc4 : Aligned arch src) (hdst4 : Aligned arch dst) :
    CallsTo arch (e9_binpatch_gen_call arch src dst) src dst ↔
      (arch = .AARCH64 → branchRange (signed64 (dst - src)) = true) := by
  unfold e9_binpatch_gen_call
  dsimp only
  by_cases harch : arch = .AARCH64
  · have halign : dst % 4 = 0 := hdst4 harch
    have halign' : (dst - src) % 4 = 0 := by
      have h1 := hsrc4 harch
      omega
    rw [if_pos harch, harch]
    by_cases hrange : branchRange (signed64 (dst - src)) = true
    · rw [if_pos hrange]
      refine iff_of_true ⟨ptr (src + 4), fun x => ?_, Or.inl rfl⟩ fun _ => hrange
      have hstep : stepBranch .AARCH64 (le32 (0x94000000 + imm26 (signed64 (dst - src)))) src 0 x =
          some (.call dst (ptr (src + 4))) := @stepAArch64_branch src dst 0x25 (Or.inr rfl) hdst hrange halign' x
      exact transfer_first hstep (fun k x => by simp) (Nat.succ_pos _)
    · rw [if_neg hrange]
      refine iff_of_false ?_ fun h => hrange (h rfl)
      rintro ⟨ret, hcall, -⟩
      have htarget := (@far_call_AArch64 src dst 0).symm.trans (hcall 0)
      simp only [Option.some.injEq, Effect.call.injEq] at htarget
      omega
  · have hstep : stepBranch arch = stepX64 := if_neg harch
    rw [if_neg harch]
    refine iff_of_true ?_ fun h => absurd h harch
    by_cases hrange : fitsRel32 (signed64 (dst - (src + 5))) = true
    · rw [if_pos hrange]
      refine ⟨ptr (src + 5), fun x => ?_, Or.inl rfl⟩
      exact transfer_first (hstep ▸ @stepX64_rel32 src dst 0xE8 (Or.inr rfl) hdst hrange x) (fun k x => by simp)
        (Nat.succ_pos _)
    · rw [if_neg hrange]
      exact ⟨ptr (src + 12), fun x => far_call_X64 harch hdst x, Or.inl rfl⟩

/-- What the two functions are to generate, and return. -/
structure Branches (arch : Arch) (src dst : Int) : Prop where
  jump : JumpsTo arch (e9_binpatch_gen_jmp arch src dst) src dst
  jumpSize : genJmpSize arch src dst = (e9_binpatch_gen_jmp arch src dst).length
  call : CallsTo arch (e9_binpatch_gen_call arch src dst) src dst
  callSize : genCallSize arch src dst = (e9_binpatch_gen_call arch src dst).length

/-- All generated jumps and calls are right but the far calls of AArch64. -/
theorem branches_iff (hdst : IsWord dst) (hsrc4 : Aligned arch src) (hdst4 : Aligned arch dst) :
    Branches arch src dst ↔ (arch = .AARCH64 → branchRange (signed64 (dst - src)) = true) := by
  rw [← gen_call_calls hdst hsrc4 hdst4]
  refine ⟨fun h => h.call, fun h => ?_⟩
  exact ⟨gen_jmp_jumps hdst hsrc4 hdst4, (genJmp_length arch src dst).symm, h, (genCall_length arch src dst).symm⟩

end

theorem branches_near : Branches .X86_64 0x401000 0x7FFF00000000 ↔
    (Arch.X86_64 = .AARCH64 → branchRange (signed64 (0x7FFF00000000 - 0x401000)) = true) :=
  branches_iff (by unfold IsWord; omega) nofun nofun

/-- A call from 0x1000 to 0x10000000 goes to 0x1000000014000003. -/
theorem far_call_misses : ¬∀ arch src dst, IsWord src → IsWord dst → Aligned arch src → Aligned arch dst →
    Branches arch src dst := by
  intro h
  have hbranches := h .AARCH64 0x1000 0x10000000 (by unfold IsWord; omega) (by unfold IsWord; omega) (fun _ => rfl)
    (fun _ => rfl)
  have hrange := (gen_call_calls (by unfold IsWord; omega) (fun _ => rfl) (fun _ => rfl)).mp hbranches.call rfl
  exact absurd hrange (by decide)

end E9Patch
