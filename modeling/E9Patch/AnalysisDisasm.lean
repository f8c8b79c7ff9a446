import E9Patch.AnalysisModel

/-!
The disassembler of the analysis engine (`e9_disasm_instruction`): lengths and categories for x86-64, and a chain
of tests under masks for AArch64. Addresses and offsets have 64 bits. Mnemonics and operand strings are left
out, and memory for an instruction is there.
-/

namespace E9Patch
open Reader Bytes

inductive InsnCategory where
  | OTHER
  | CALL
  | JUMP
  | COND_JUMP
  | RET
  | SYSCALL
  | NOP
  | PUSH
  | POP
  | LEA
  | ARITHMETIC
  | LOAD
  | STORE
  deriving DecidableEq, Repr

/-- Decoded instruction. The target is 0 where there is none. -/
structure Insn where
  address : Nat
  size : Nat
  category : InsnCategory
  target : Nat
  target_is_indirect : Bool
  is_conditional : Bool
  reads_memory : Bool
  writes_memory : Bool
  deriving DecidableEq, Repr

/-- What `e9_alloc` and the first assignments leave. -/
def Insn.start (address size : Nat) : Insn := ⟨address, size, .OTHER, 0, false, false, false, false⟩

/-- Convert address to offset. -/
def disasmOffset (bin : E9Binary) (addr : Nat) : Nat :=
  if bin.base_address ≠ 0 ∧ addr ≥ bin.base_address then addr - bin.base_address else addr

/-- The sum of an address and an `int`, in 64 bits. -/
def addrPlus (addr : Nat) (rel : Int) : Nat := ((addr + rel) % 2 ^ 64).toNat

/-! ### x86-64 -/

/-- The prefixes that `x64_insn_length` skips, apart from REX. -/
def x64Prefixes : List UInt8 := [0x66, 0x67, 0xF0, 0xF2, 0xF3, 0x2E, 0x36, 0x3E, 0x26, 0x64, 0x65]

def x64IsRex (b : UInt8) : Bool := b &&& 0xF0 = 0x40

/-- The loop that skips the prefixes: how many there are, and whether one is a REX prefix. -/
def x64SkipPrefixes : List UInt8 → Nat × Bool
  | [] => (0, false)
  | b :: code =>
    if x64Prefixes.contains b then ((x64SkipPrefixes code).1 + 1, (x64SkipPrefixes code).2)
    else if x64IsRex b then ((x64SkipPrefixes code).1 + 1, true)
    else (0, false)

/-- No operands. -/
def x64NoOperands : List UInt8 := [0x90, 0xC3, 0xCB, 0xCC, 0xF4, 0xF5, 0xFC, 0xFD]

/-- imm8 and the short conditional jumps. -/
def x64Imm8 : List UInt8 :=
  [0x04, 0x0C, 0x14, 0x1C, 0x24, 0x2C, 0x34, 0x3C, 0x6A, 0xA8, 0xB0, 0xB1, 0xB2, 0xB3, 0xB4, 0xB5, 0xB6, 0xB7, 0xCD,
    0xD4, 0xD5, 0xE4, 0xE5, 0xE6, 0xE7, 0xEB, 0x70, 0x71, 0x72, 0x73, 0x74, 0x75, 0x76, 0x77, 0x78, 0x79, 0x7A, 0x7B,
    0x7C, 0x7D, 0x7E, 0x7F, 0xE0, 0xE1, 0xE2, 0xE3]

/-- imm16/32. -/
def x64Imm32 : List UInt8 :=
  [0x05, 0x0D, 0x15, 0x1D, 0x25, 0x2D, 0x35, 0x3D, 0x68, 0xA9, 0xE8, 0xE9]

/-- imm64, with a REX prefix. -/
def x64Imm64 : List UInt8 := [0xB8, 0xB9, 0xBA, 0xBB, 0xBC, 0xBD, 0xBE, 0xBF]

/-- ret imm16. -/
def x64Imm16 : List UInt8 := [0xC2, 0xCA]

/-- The position behind the ModR/M byte at `pos` and what it asks for. -/
def x64ModRM (code : List UInt8) (opcode : UInt8) (pos : Nat) : Nat :=
  if pos < code.length then
    let modrm := (byteAt code pos).toNat
    let sib := if modrm / 64 ≠ 3 ∧ modrm % 8 = 4 ∧ pos + 1 < code.length then pos + 2 else pos + 1
    let disp := if modrm / 64 = 1 then sib + 1 else if modrm / 64 = 2 ∨ modrm / 64 = 0 ∧ modrm % 8 = 5 then sib + 4 else sib
    if 0x80 ≤ opcode ∧ opcode ≤ 0x83 then disp + (if opcode = 0x81 then 4 else 1) else disp
  else pos

/-- Simple x86-64 length decoder, for the bytes that may be looked at. -/
def x64_insn_length (code : List UInt8) : Nat :=
  let pos := (x64SkipPrefixes code).1
  if pos ≥ code.length then pos
  else
    let opcode := byteAt code pos
    if opcode = 0x0F then
      if pos + 1 ≥ code.length then pos + 1
      else
        let opcode := byteAt code (pos + 1)
        if opcode = 0x38 ∨ opcode = 0x3A then
          if pos + 2 ≥ code.length then pos + 2 else x64ModRM code opcode (pos + 3)
        else x64ModRM code opcode (pos + 2)
    else if x64NoOperands.contains opcode then pos + 1
    else if x64Imm8.contains opcode then pos + 2
    else if x64Imm32.contains opcode then pos + 5
    else if x64Imm64.contains opcode then if (x64SkipPrefixes code).2 then pos + 9 else pos + 5
    else if x64Imm16.contains opcode then pos + 3
    else x64ModRM code opcode (pos + 1)

/-- The prefixes that `disasm_x64` skips, apart from REX. -/
def x64CategoryPrefixes : List UInt8 := [0x66, 0x67, 0xF2, 0xF3, 0x2E, 0x36]

/-- The target of a branch of `len` bytes, with the displacement of four bytes or of one at `pos`. -/
def x64Target (addr len : Nat) (code : List UInt8) (pos : Nat) (short : Bool) : Nat :=
  if short then if pos + 1 ≤ len then addrPlus addr (len + word8 code pos) else 0
  else if pos + 4 ≤ len then addrPlus addr (len + word32 code pos) else 0

/-- The opcodes behind 0F. -/
def x64TwoByte (insn : Insn) (code : List UInt8) (pos : Nat) : Insn :=
  if pos + 1 < insn.size then
    let op2 := byteAt code (pos + 1)
    if 0x80 ≤ op2 ∧ op2 ≤ 0x8F then
      { insn with category := .COND_JUMP, is_conditional := true, target := x64Target insn.address insn.size code (pos + 2) false }
    else if op2 = 0x05 then { insn with category := .SYSCALL }
    else insn
  else insn

/-- Categorize and decode: `code` is the bytes of the instruction, with the opcode at `pos`. -/
def x64Categorize (insn : Insn) (code : List UInt8) (pos : Nat) : Insn :=
  let opcode := byteAt code pos
  let target := x64Target insn.address insn.size code (pos + 1)
  if opcode = 0xC3 ∨ opcode = 0xCB ∨ opcode = 0xC2 ∨ opcode = 0xCA then { insn with category := .RET }
  else if opcode = 0xE8 then { insn with category := .CALL, target := target false }
  else if opcode = 0xE9 then { insn with category := .JUMP, target := target false }
  else if opcode = 0xEB then { insn with category := .JUMP, target := target true }
  else if 0x70 ≤ opcode ∧ opcode ≤ 0x7F then
    { insn with category := .COND_JUMP, is_conditional := true, target := target true }
  else if opcode = 0x90 then { insn with category := .NOP }
  else if opcode = 0x0F then x64TwoByte insn code pos
  else if 0x50 ≤ opcode ∧ opcode ≤ 0x57 then { insn with category := .PUSH }
  else if 0x58 ≤ opcode ∧ opcode ≤ 0x5F then { insn with category := .POP }
  else insn

def MAX_INSN_SIZE : Nat := 16

/-- The bytes from an offset that the length decoder may look at. -/
def x64Window (d : Block) (offset : Nat) : List UInt8 := d.slice offset (min (d.size - offset) MAX_INSN_SIZE)

def disasm_x64 (d : Block) (bin : E9Binary) (addr : Nat) : Option Insn :=
  let offset := disasmOffset bin addr
  if offset ≥ d.size then none
  else
    let code := x64Window d offset
    let len := x64_insn_length code
    if len = 0 ∨ len > code.length then none
    else
      let pos := ((code.take len).takeWhile fun b => x64IsRex b || x64CategoryPrefixes.contains b).length
      if pos ≥ len then some (Insn.start addr len)
      else some (x64Categorize (Insn.start addr len) (code.take len) pos)

/-! ### AArch64 -/

def A64_MASK_BL : BitVec 32 := 0xFC000000
def A64_OP_BL : BitVec 32 := 0x94000000
def A64_MASK_B : BitVec 32 := 0xFC000000
def A64_OP_B : BitVec 32 := 0x14000000
def A64_MASK_RET : BitVec 32 := 0xFFFFFC1F
def A64_OP_RET : BitVec 32 := 0xD65F0000
def A64_MASK_CBZ : BitVec 32 := 0x7F000000
def A64_OP_CBZ : BitVec 32 := 0x34000000
def A64_MASK_TBZ : BitVec 32 := 0x7F000000
def A64_OP_TBZ : BitVec 32 := 0x36000000
def A64_MASK_BCOND : BitVec 32 := 0xFF000010
def A64_OP_BCOND : BitVec 32 := 0x54000000

/-- A signed field of the word: the bits `low` behind a shift, with `top` set where `sign` is. -/
def a64Imm (insn_word : BitVec 32) (shift : Nat) (low sign top : BitVec 32) : BitVec 32 :=
  let imm := insn_word >>> shift &&& low
  if imm &&& sign ≠ 0 then imm ||| top else imm

/-- The three shapes of an offset. -/
def a64Imm26 (insn_word : BitVec 32) : BitVec 32 := a64Imm insn_word 0 0x03FFFFFF 0x02000000 0xFC000000

def a64Imm19 (insn_word : BitVec 32) : BitVec 32 := a64Imm insn_word 5 0x7FFFF 0x40000 0xFFF80000

def a64Imm14 (insn_word : BitVec 32) : BitVec 32 := a64Imm insn_word 5 0x3FFF 0x2000 0xFFFFC000

/-- `addr + (imm << 2)`. -/
def a64Target (addr : Nat) (imm : BitVec 32) : Nat := addrPlus addr (imm <<< 2).toInt

/-- Decode instruction category. -/
def a64Categorize (addr : Nat) (insn_word : BitVec 32) : Insn :=
  let insn := Insn.start addr 4
  if insn_word &&& A64_MASK_BL = A64_OP_BL then
    { insn with category := .CALL, target := a64Target addr (a64Imm26 insn_word) }
  else if insn_word &&& A64_MASK_B = A64_OP_B then
    { insn with category := .JUMP, target := a64Target addr (a64Imm26 insn_word) }
  else if insn_word &&& A64_MASK_RET = A64_OP_RET then { insn with category := .RET }
  else if insn_word &&& A64_MASK_BCOND = A64_OP_BCOND then
    { insn with category := .COND_JUMP, is_conditional := true, target := a64Target addr (a64Imm19 insn_word) }
  else if insn_word &&& A64_MASK_CBZ = A64_OP_CBZ then
    { insn with category := .COND_JUMP, is_conditional := true, target := a64Target addr (a64Imm19 insn_word) }
  else if insn_word &&& A64_MASK_TBZ = A64_OP_TBZ then
    { insn with category := .COND_JUMP, is_conditional := true, target := a64Target addr (a64Imm14 insn_word) }
  else if insn_word &&& 0xFC000000 = 0xD4000000 then { insn with category := .SYSCALL }
  else if insn_word &&& 0x1F000000 = 0x10000000 then { insn with category := .LEA }
  else if insn_word &&& 0x3B000000 = 0x39000000 then
    if insn_word.getLsbD 22 then { insn with category := .LOAD, reads_memory := true }
    else { insn with category := .STORE, writes_memory := true }
  else if insn_word &&& 0x7F800000 = 0x29000000 ∨ insn_word &&& 0x7F800000 = 0x28000000 then
    { insn with category := if insn_word.getLsbD 22 then .LOAD else .STORE }
  else if insn_word &&& 0xFF000000 = 0xD1000000 ∨ insn_word &&& 0xFF000000 = 0x91000000 then
    { insn with category := .ARITHMETIC }
  else if insn_word = 0xD503201F then { insn with category := .NOP }
  else insn

/-- The sum of the check wraps around. -/
def disasm_aarch64 (d : Block) (bin : E9Binary) (addr : Nat) : Except Fault (Option Insn) :=
  let offset := disasmOffset bin addr
  if (offset + 4) % 2 ^ 64 > d.size then .ok none
  else do
    let insn_word ← read d offset 4
    .ok (some (a64Categorize addr (BitVec.ofNat 32 insn_word)))

/-! ### Any architecture -/

def e9_disasm_instruction (d : Block) (bin : E9Binary) (addr : Nat) : Except Fault (Option Insn) :=
  match bin.arch with
  | .X86_64 => .ok (disasm_x64 d bin addr)
  | .AARCH64 => disasm_aarch64 d bin addr
  | .UNKNOWN => .ok none

theorem addrPlus_lt (addr : Nat) (rel : Int) : addrPlus addr rel < 2 ^ 64 := by
  unfold addrPlus
  omega

theorem x64Target_lt (addr len : Nat) (code : List UInt8) (pos : Nat) (short : Bool) :
    x64Target addr len code pos short < 2 ^ 64 := by
  unfold x64Target
  split <;> split <;> first | exact addrPlus_lt _ _ | exact Nat.two_pow_pos 64

/-- What any decoding leaves: the address, a direct target of 64 bits, and one for calls and jumps only. -/
structure Insn.DecodedAt (addr size : Nat) (insn : Insn) : Prop where
  address : insn.address = addr
  size : insn.size = size
  direct : insn.target_is_indirect = false
  bounded : insn.target < 2 ^ 64
  target : insn.target ≠ 0 → insn.category = .CALL ∨ insn.category = .JUMP ∨ insn.category = .COND_JUMP

section
variable {addr size : Nat}

theorem decoded_ite {c : Prop} [Decidable c] {x y : Insn} (hx : x.DecodedAt addr size) (hy : y.DecodedAt addr size) :
    (if c then x else y).DecodedAt addr size := by
  by_cases hc : c
  · rwa [if_pos hc]
  · rwa [if_neg hc]

/-- No target. -/
theorem Insn.DecodedAt.other {insn : Insn} (haddress : insn.address = addr) (hsize : insn.size = size)
    (hdirect : insn.target_is_indirect = false) (htarget : insn.target = 0) : insn.DecodedAt addr size :=
  ⟨haddress, hsize, hdirect, htarget ▸ Nat.two_pow_pos 64, fun h => absurd htarget h⟩

theorem Insn.start_decoded (addr size : Nat) : (Insn.start addr size).DecodedAt addr size := .other rfl rfl rfl rfl

theorem x64Categorize_decoded (code : List UInt8) (pos : Nat) :
    (x64Categorize (Insn.start addr size) code pos).DecodedAt addr size := by
  have hcall : ∀ p b, Insn.DecodedAt addr size
      { Insn.start addr size with category := .CALL, target := x64Target addr size code p b } :=
    fun p b => ⟨rfl, rfl, rfl, x64Target_lt addr size code p b, fun _ => Or.inl rfl⟩
  have hjump : ∀ p b, Insn.DecodedAt addr size
      { Insn.start addr size with category := .JUMP, target := x64Target addr size code p b } :=
    fun p b => ⟨rfl, rfl, rfl, x64Target_lt addr size code p b, fun _ => Or.inr (Or.inl rfl)⟩
  have hcond : ∀ p b, Insn.DecodedAt addr size
      { Insn.start addr size with
        category := .COND_JUMP, is_conditional := true, target := x64Target addr size code p b } :=
    fun p b => ⟨rfl, rfl, rfl, x64Target_lt addr size code p b, fun _ => Or.inr (Or.inr rfl)⟩
  have hother : ∀ c, Insn.DecodedAt addr size { Insn.start addr size with category := c } :=
    fun _ => .other rfl rfl rfl rfl
  have htwo : (x64TwoByte (Insn.start addr size) code pos).DecodedAt addr size := by
    unfold x64TwoByte
    exact decoded_ite (decoded_ite (hcond _ _) (decoded_ite (hother _) (hother _))) (hother _)
  unfold x64Categorize
  refine decoded_ite (hother _) (decoded_ite (hcall _ _) (decoded_ite (hjump _ _) (decoded_ite (hjump _ _)
    (decoded_ite (hcond _ _) (decoded_ite (hother _) (decoded_ite htwo (decoded_ite (hother _)
      (decoded_ite (hother _) (hother _)))))))))

theorem a64Categorize_decoded (addr : Nat) (w : BitVec 32) : (a64Categorize addr w).DecodedAt addr 4 := by
  unfold a64Categorize
  repeat' apply decoded_ite
  all_goals first
    | exact ⟨rfl, rfl, rfl, addrPlus_lt _ _, fun _ => Or.inl rfl⟩
    | exact ⟨rfl, rfl, rfl, addrPlus_lt _ _, fun _ => Or.inr (Or.inl rfl)⟩
    | exact ⟨rfl, rfl, rfl, addrPlus_lt _ _, fun _ => Or.inr (Or.inr rfl)⟩
    | exact .other rfl rfl rfl rfl

/-- An instruction stands at the address that was asked for, has 1 to 16 bytes, and is in the file. -/
theorem e9_disasm_instruction_decoded {d : Block} {bin : E9Binary} {insn : Insn}
    (h : e9_disasm_instruction d bin addr = .ok (some insn)) :
    ∃ size, 0 < size ∧ size ≤ MAX_INSN_SIZE ∧ disasmOffset bin addr + size ≤ d.size ∧ insn.DecodedAt addr size := by
  unfold e9_disasm_instruction at h
  split at h
  · have heq := Except.ok.inj h
    unfold disasm_x64 at heq
    dsimp only at heq
    split at heq
    · exact nomatch heq
    · split at heq
      · exact nomatch heq
      · rename_i hin hlen
        have hwindow : (x64Window d (disasmOffset bin addr)).length =
            min (d.size - disasmOffset bin addr) MAX_INSN_SIZE := by
          unfold x64Window
          simp [Block.slice]
        refine ⟨x64_insn_length (x64Window d (disasmOffset bin addr)), by omega, by omega, by omega, ?_⟩
        split at heq
        · rw [← Option.some.inj heq]
          exact Insn.start_decoded _ _
        · rw [← Option.some.inj heq]
          exact x64Categorize_decoded _ _
  · unfold disasm_aarch64 at h
    dsimp only at h
    split at h
    · cases h
    · obtain ⟨w, hread, hw⟩ := of_bind h
      cases hw
      have hhas : d.Has (disasmOffset bin addr) 4 := by
        by_contra hnot
        unfold Reader.read at hread
        rw [if_neg hnot] at hread
        cases hread
      have hin := hhas.2
      exact ⟨4, by decide, by decide, by omega, a64Categorize_decoded _ _⟩
  · cases h

/-- But for the last four offsets of the address space nothing is read behind the file. -/
theorem e9_disasm_instruction_ok {d : Block} {bin : E9Binary} (h : disasmOffset bin addr + 4 < 2 ^ 64) :
    ∃ r, e9_disasm_instruction d bin addr = .ok r := by
  unfold e9_disasm_instruction
  split
  · exact ⟨_, rfl⟩
  · unfold disasm_aarch64
    dsimp only
    split
    · exact ⟨_, rfl⟩
    · rename_i hin
      have hhas : d.Has (disasmOffset bin addr) 4 := ⟨by omega, by omega⟩
      rw [read_ok hhas, ok_bind]
      exact ⟨_, rfl⟩
  · exact ⟨_, rfl⟩

end

end E9Patch
