import E9Patch.Bytes

/-!
The partial instruction decoder of `e9x86_64.cpp` and what is built on it: relocation, the index of a
pc-relative operand, and the classification of control-flow transfers. The bytes of an instruction are
a list, whose length is the source's `size`. What `relocateInstr` pushes does not depend on the rest of
the buffer, so that `relocate` gives the pushed bytes and by which of its exits it leaves.
-/

namespace E9Patch
open Bytes

/-- The global options that the modelled code reads. -/
structure Options where
  option_Ocall : Bool
  option_OCFR : Bool
  option_Oepilogue : Nat
  option_Oepilogue_size : Nat
  option_Oorder : Bool
  option_Opeephole : Bool
  option_Oprologue : Nat
  option_Oprologue_size : Nat
  option_Oscratch_stack : Bool
  option_batch : Bool
  option_tactic_B0 : Bool
  option_tactic_B1 : Bool
  option_tactic_B2 : Bool
  option_tactic_T0 : Bool
  option_tactic_T1 : Bool
  option_tactic_T2 : Bool
  option_tactic_T3 : Bool
  option_tactic_backward_T3 : Bool
  option_loader_base : Int
  option_trap : List Int
  option_trap_all : Bool
  option_mem_multi_page : Bool
  option_mem_lb : Int
  option_mem_ub : Int
  deriving DecidableEq, Repr

/-- A buffer of `max` bytes. `data` is all that was pushed; what is past `max` was not stored. -/
structure Buffer where
  data : List UInt8
  max : Nat
  deriving DecidableEq, Repr

namespace Buffer

def push (buf : Buffer) (bytes : List UInt8) : Buffer := { buf with data := buf.data ++ bytes }
def size (buf : Buffer) : Nat := buf.data.length
def reset (buf : Buffer) (start : Nat) : Buffer := { buf with data := buf.data.take start }

/-- `commit(start)`: the number of bytes pushed since `start`, or -1 if the buffer is overfull. -/
def commit (buf : Buffer) (start : Nat) : Int × Buffer :=
  if buf.size > buf.max then (-1, buf.reset start) else (buf.size - start, buf)

end Buffer

inductive Encoding where
  | SINGLE_BYTE
  | TWO_BYTES_0F
  | THREE_BYTES_0F38
  | THREE_BYTES_0F3A
  deriving DecidableEq, Repr

/-- The prefixes other than REX. -/
def legacyPrefixes : List UInt8 :=
  [0x67, 0xf0, 0xf2, 0xf3, 0x2e, 0x36, 0x3e, 0x26, 0x64, 0x65, 0x66]

def rexPrefixes : List UInt8 :=
  [0x40, 0x41, 0x42, 0x43, 0x44, 0x45, 0x46, 0x47, 0x48, 0x49, 0x4a, 0x4b, 0x4c, 0x4d, 0x4e, 0x4f]

/-- What `decodePrefix` returns: the index of the opcode, the last REX prefix and the address size. -/
structure PrefixInfo where
  i : Nat
  rex : UInt8
  addr32 : Bool
  deriving DecidableEq, Repr

def decodePrefixFrom : List UInt8 → PrefixInfo → PrefixInfo
  | [], p => p
  | b :: bytes, p =>
    if b ∈ legacyPrefixes then
      decodePrefixFrom bytes ⟨p.i + 1, p.rex, p.addr32 || b == 0x67⟩
    else if b ∈ rexPrefixes then decodePrefixFrom bytes ⟨p.i + 1, b, p.addr32⟩
    else p

/-- Decode an instruction prefix. -/
def decodePrefix (bytes : List UInt8) : PrefixInfo := decodePrefixFrom bytes ⟨0, 0, false⟩

structure OpcodeInfo where
  i : Nat
  encoding : Encoding
  opcode : UInt8
  deriving DecidableEq, Repr

/-- The map of a VEX or EVEX prefix. -/
def decodeMap (mmmmm : UInt8) : Option Encoding :=
  if mmmmm = 0x01 then some .TWO_BYTES_0F
  else if mmmmm = 0x02 then some .THREE_BYTES_0F38
  else if mmmmm = 0x03 then some .THREE_BYTES_0F3A
  else none

/-- The classic encodings: one byte, or an escape. -/
def decodeClassic (bytes : List UInt8) (i : Nat) : Option OpcodeInfo :=
  let size := bytes.length
  let opcode := byteAt bytes i
  let i := i + 1
  if opcode = 0x0f then
    if i ≥ size then none
    else
      let next := byteAt bytes i
      let i := i + 1
      if next = 0x38 then
        if i ≥ size then none else some ⟨i + 1, .THREE_BYTES_0F38, byteAt bytes i⟩
      else if next = 0x3a then
        if i ≥ size then none else some ⟨i + 1, .THREE_BYTES_0F3A, byteAt bytes i⟩
      else some ⟨i, .TWO_BYTES_0F, next⟩
  else some ⟨i, .SINGLE_BYTE, opcode⟩

/-- Decode an instruction opcode; `none` where the source returns -1. Past the end the source leaves
`opcode` unset, which is 0 here. -/
def decodeOpcode (bytes : List UInt8) (i : Nat) : Option OpcodeInfo :=
  let size := bytes.length
  if i ≥ size then some ⟨i, .SINGLE_BYTE, 0⟩
  else
    let b := byteAt bytes i
    let rex := i > 0 ∧ byteAt bytes (i - 1) &&& 0xf0 = 0x40
    if b = 0x62 then
      if size - i > 4 ∧ ~~~byteAt bytes (i + 1) &&& 0x0c = 0x0c ∧ byteAt bytes (i + 2) &&& 0x04 = 0x04 then
        (decodeMap (byteAt bytes (i + 1) &&& 0x03)).map (⟨i + 5, ·, byteAt bytes (i + 4)⟩)
      else none
    else if b = 0xc4 ∧ ¬rex then
      if size - i > 3 then
        (decodeMap (byteAt bytes (i + 1) &&& 0x1f)).map (⟨i + 4, ·, byteAt bytes (i + 3)⟩)
      else none
    else if b = 0xc5 ∧ size - i > 2 ∧ ¬rex then
      some ⟨i + 3, .TWO_BYTES_0F, byteAt bytes (i + 2)⟩
    else decodeClassic bytes i

/-! ### Relocation -/

/-- The exit that `relocateInstr` takes: `no_modification_necessary`, a rewriting case, or -1. -/
inductive Outcome where
  | copied
  | rewritten
  | failed
  deriving DecidableEq, Repr

/-- The bytes pushed and the exit taken. -/
structure Relocation where
  outcome : Outcome
  bytes : List UInt8
  deriving DecidableEq, Repr

def Relocation.ok (r : Relocation) : Bool := r.outcome ≠ .failed

def fitsInt32 (x : Int) : Bool := -2 ^ 31 ≤ x ∧ x ≤ 2 ^ 31 - 1
def fitsInt8 (x : Int) : Bool := -2 ^ 7 ≤ x ∧ x ≤ 2 ^ 7 - 1

/-- A rewritten displacement, or a failure where it does not fit and the size is not all that is asked
for. -/
def rewrite (relax : Bool) (out : List UInt8) (diff : Int) (opcode rest : List UInt8) : Relocation :=
  if !relax && !fitsInt32 diff then ⟨.failed, out⟩
  else ⟨.rewritten, out ++ opcode ++ le32 diff ++ rest⟩

/-- Push the return address for a call onto the stack. -/
def pushReturnAddress (o : Options) (addr offset : Int) (size : Nat) (pic : Bool) : Relocation :=
  if o.option_Ocall then ⟨.rewritten, []⟩
  else
    let target := addr + size
    if !pic && fitsInt32 target then ⟨.rewritten, 0x68 :: le32 target⟩
    else if !o.option_Oscratch_stack then
      let out : List UInt8 := [0x50]
      let diff := target - (addr + offset + out.length + 7)
      if !fitsInt32 diff then ⟨.failed, out⟩
      else ⟨.rewritten, out ++ [0x48, 0x8d, 0x05] ++ le32 diff ++ [0x48, 0x87, 0x04, 0x24]⟩
    else
      let out : List UInt8 := [0x48, 0x89, 0x84, 0x24, 0x00, 0xc0, 0xff, 0xff]
      let diff := target - (addr + offset + out.length + 7)
      if !fitsInt32 diff then ⟨.failed, out⟩
      else ⟨.rewritten, out ++ [0x48, 0x8d, 0x05] ++ le32 diff ++
        [0x50, 0x48, 0x8b, 0x84, 0x24, 0x08, 0xc0, 0xff, 0xff]⟩

/-- The displacement of an `%rsp`-based operand whose ModRM byte is at `i`, if it is all there. -/
def rspDisp (bytes : List UInt8) (i : Nat) (mod : UInt8) : Option Int :=
  let size := bytes.length
  if mod = 0x0 then some 0
  else if mod = 0x1 then if size - i < 3 then none else some (word8 bytes (i + 2))
  else if size - i < 6 then none else some (word32 bytes (i + 2))

/-- An indirect call, with its ModRM byte at `i`: the return address is pushed and the call becomes a
jump. -/
def relocateIndirectCall (o : Options) (addr offset : Int) (bytes : List UInt8) (pic relax : Bool)
    (rex : UInt8) (i : Nat) : Relocation :=
  let size := bytes.length
  let modRM := byteAt bytes i
  let mod := (modRM &&& 0xc0) >>> 6
  let rm := modRM &&& 0x7
  let push := pushReturnAddress o addr offset size pic
  if !push.ok && !relax then push
  else
    let buf_size := push.bytes.length
    let out := push.bytes ++ bytes.take i
    let modRM := if !o.option_Ocall then (modRM &&& ~~~(0x38 : UInt8)) ||| ((0x04 : UInt8) <<< 3) else modRM
    let b := rex &&& 0x1
    let normal : Relocation :=
      let out := out ++ [modRM]
      if mod = 0x0 ∧ rm = 0x05 ∧ size - i - 1 ≥ 4 then
        let pcrel32 := word32 bytes (i + 1)
        let target := addr + size + pcrel32
        let diff := target - (addr + offset + buf_size + size)
        rewrite relax out diff [] (bytes.drop (i + 1 + 4))
      else ⟨.rewritten, out ++ bytes.drop (i + 1)⟩
    if mod = 0x3 then
      if rm = 0x4 ∧ b = 0 then ⟨.failed, out⟩ else normal
    else if rm ≠ 0x4 ∨ size - i < 2 ∨ b ≠ 0 then normal
    else
      let sib := byteAt bytes (i + 1)
      if sib &&& 0x7 ≠ 0x4 then normal
      else
        match rspDisp bytes i mod with
        | none => normal
        | some disp =>
          let disp := if !o.option_Ocall then signed32 (disp + 8) else disp
          if disp = 0 then
            ⟨.rewritten, out ++ [(modRM &&& ~~~(0xc0 : UInt8)) ||| ((0x0 : UInt8) <<< 6), sib]⟩
          else if fitsInt8 disp then
            ⟨.rewritten, out ++ [(modRM &&& ~~~(0xc0 : UInt8)) ||| ((0x1 : UInt8) <<< 6), sib, byte disp]⟩
          else ⟨.rewritten, out ++ [(modRM &&& ~~~(0xc0 : UInt8)) ||| ((0x2 : UInt8) <<< 6), sib] ++ le32 disp⟩

/-- The opcodes of the one-byte map that take an immediate and no ModRM byte. -/
def isMovImm (opcode : UInt8) : Bool :=
  (0xA0 ≤ opcode ∧ opcode ≤ 0xA3) ∨ (0xB8 ≤ opcode ∧ opcode ≤ 0xBF)

def isJcc8 (opcode : UInt8) : Bool := 0x70 ≤ opcode ∧ opcode ≤ 0x7F
def isJcc32 (opcode : UInt8) : Bool := 0x80 ≤ opcode ∧ opcode ≤ 0x8F

/-- Generic handling of position-dependent instructions, with the opcode decoded. -/
def relocateGeneric (addr offset : Int) (bytes : List UInt8) (op : OpcodeInfo) : Relocation :=
  let size := bytes.length
  let i := op.i
  if size - i < 5 then ⟨.copied, bytes⟩
  else if op.encoding = .SINGLE_BYTE ∧ isMovImm op.opcode then ⟨.copied, bytes⟩
  else
    let modRM := byteAt bytes i
    let i := i + 1
    let mod := (modRM &&& 0xc0) >>> 6
    let rm := modRM &&& 0x7
    if mod = 0x0 ∧ rm = 0x05 ∧ size - i ≥ 4 then
      let pcrel32 := word32 bytes i
      let target := addr + size + pcrel32
      let diff := target - (addr + offset + size)
      rewrite false [] diff (bytes.take i) (bytes.drop (i + 4))
    else ⟨.copied, bytes⟩

/-- What `relocateInstr` pushes, and its exit. -/
def relocate (o : Options) (addr offset : Int) (bytes : List UInt8) (pic relax : Bool) : Relocation :=
  let size := bytes.length
  let p := decodePrefix bytes
  match decodeOpcode bytes p.i with
  | none => ⟨.copied, bytes⟩
  | some op =>
    let i := op.i
    let opcode := op.opcode
    if op.encoding = .SINGLE_BYTE ∧ opcode = 0xFF ∧ size - i ≥ 1 ∧
        (byteAt bytes i &&& 0x38) >>> 3 = 0x02 then
      relocateIndirectCall o addr offset bytes pic relax p.rex i
    else if op.encoding = .SINGLE_BYTE ∧ size - i = 1 ∧ opcode = 0xE3 then
      let out : List UInt8 := (if p.addr32 then [0x67] else []) ++ [0xe3, 0x02, 0xeb, 0x05]
      let target := addr + size + word8 bytes i
      rewrite relax out (target - (addr + offset + out.length + 5)) [0xE9] []
    else if op.encoding = .SINGLE_BYTE ∧ size - i = 1 ∧ opcode = 0xEB then
      let target := addr + size + word8 bytes i
      rewrite relax [] (target - (addr + offset + 5)) [0xE9] []
    else if op.encoding = .SINGLE_BYTE ∧ size - i = 1 ∧ isJcc8 opcode then
      let target := addr + size + word8 bytes i
      rewrite relax [] (target - (addr + offset + 6)) [0x0F, (opcode - 0x70) + 0x80] []
    else if op.encoding = .SINGLE_BYTE ∧ size - i = 4 ∧ opcode = 0xE8 then
      let push := pushReturnAddress o addr offset size pic
      if !push.ok then push
      else
        let target := addr + size + word32 bytes i
        rewrite relax push.bytes (target - (addr + offset + push.bytes.length + 5))
          [if o.option_Ocall then 0xE8 else 0xE9] []
    else if op.encoding = .SINGLE_BYTE ∧ size - i = 4 ∧ opcode = 0xE9 then
      let target := addr + size + word32 bytes i
      rewrite relax [] (target - (addr + offset + 5)) [0xE9] []
    else if op.encoding = .TWO_BYTES_0F ∧ size - i = 4 ∧ isJcc32 opcode then
      let target := addr + size + word32 bytes i
      rewrite relax [] (target - (addr + offset + 6)) [0x0F, opcode] []
    else relocateGeneric addr offset bytes op

/-- Relocate an instruction, rewriting it if necessary. Returns -1 if the instruction cannot be
relocated; what was pushed before that stays in the buffer. -/
def relocateInstr (o : Options) (addr offset32 : Int) (bytes : List UInt8) (pic : Bool) (buf : Buffer)
    (relax : Bool) : Int × Buffer :=
  let r := relocate o addr offset32 bytes pic relax
  let start := buf.size
  if r.ok then (buf.push r.bytes).commit start else (-1, buf.push r.bytes)

/-- Get the index of any pcrel intermediate if it exists, else 0. -/
def getInstrPCRelativeIndex (bytes : List UInt8) : Nat :=
  let size := bytes.length
  let p := decodePrefix bytes
  match decodeOpcode bytes p.i with
  | none => 0
  | some op =>
    let i := op.i
    let opcode := op.opcode
    if op.encoding = .SINGLE_BYTE ∧ size - i = 1 ∧ (opcode = 0xE3 ∨ opcode = 0xEB ∨ isJcc8 opcode) then i
    else if op.encoding = .SINGLE_BYTE ∧ size - i = 4 ∧ (opcode = 0xE8 ∨ opcode = 0xE9) then i
    else if op.encoding = .TWO_BYTES_0F ∧ size - i = 4 ∧ isJcc32 opcode then i
    else if size - i < 5 then 0
    else if op.encoding = .SINGLE_BYTE ∧ isMovImm opcode then 0
    else
      let modRM := byteAt bytes i
      let i := i + 1
      let mod := (modRM &&& 0xc0) >>> 6
      let rm := modRM &&& 0x7
      if mod = 0x0 ∧ rm = 0x05 then i else 0

/-! ### Control-flow transfers -/

/-- `getModRMSize(bytes, size)`, or none for -1. -/
def getModRMSize (bytes : List UInt8) (size : Nat) : Option Nat :=
  if 1 > size then none
  else
    let modRM := byteAt bytes 0
    let mod := (modRM &&& 0xc0) >>> 6
    let rm := modRM &&& 0x7
    let within (n : Nat) : Option Nat := if n > size then none else some n
    if mod = 0x03 then some 1
    else if rm ≠ 0x04 then
      if mod = 0x00 then if rm = 0x05 then within 5 else some 1
      else if mod = 0x01 then within 2
      else within 5
    else if 2 > size then none
    else
      let base := byteAt bytes 1 &&& 0x3
      if mod = 0x00 then if base = 0x05 then within 6 else some 2
      else if mod = 0x01 then within 3
      else within 6

structure CFTInfo where
  call : Bool
  ret : Bool
  jmp : Bool
  jcc : Bool
  target : Option Int
  deriving DecidableEq, Repr

/-- Get information about a Control-Flow-Transfer instruction. -/
def getCFTInfo (addr : Int) (bytes : List UInt8) : Option CFTInfo :=
  let size := bytes.length
  let p := decodePrefix bytes
  match decodeOpcode bytes p.i with
  | none => none
  | some op =>
    let i := op.i
    let opcode := op.opcode
    if op.encoding = .SINGLE_BYTE then
      if opcode = 0xC3 then
        if size - i ≠ 0 then none else some ⟨false, true, false, false, none⟩
      else if opcode = 0xE3 ∨ isJcc8 opcode ∨ opcode = 0xEB then
        if size - i ≠ 1 then none
        else some ⟨false, false, opcode = 0xEB, opcode ≠ 0xEB, some (addr + i + 1 + word8 bytes i)⟩
      else if opcode = 0xE8 ∨ opcode = 0xE9 then
        if size - i ≠ 4 then none
        else some ⟨opcode = 0xE8, false, opcode = 0xE9, false, some (addr + i + 4 + word32 bytes i)⟩
      else if opcode = 0xFF then
        -- the source passes `bytes`, not `bytes + i`
        match getModRMSize bytes (size - i) with
        | none => none
        | some _ =>
          let op := (byteAt bytes i &&& 0x38) >>> 3
          if op = 0x02 then some ⟨true, false, false, false, none⟩
          else if op = 0x04 then some ⟨false, false, true, false, none⟩
          else none
      else none
    else if op.encoding = .TWO_BYTES_0F ∧ isJcc32 opcode then
      if size - i ≠ 4 then none
      else some ⟨false, false, false, true, some (addr + i + 4 + word32 bytes i)⟩
    else none

/-- Which transfers a caller asks for. -/
structure CFTFlags where
  call : Bool
  ret : Bool
  jmp : Bool
  jcc : Bool

/-- Returns true iff the instruction is a control-flow-transfer. -/
def isCFT (bytes : List UInt8) (flags : CFTFlags) : Bool :=
  match getCFTInfo 0 bytes with
  | none => false
  | some CFT => flags.call && CFT.call || flags.ret && CFT.ret || flags.jmp && CFT.jmp ||
      flags.jcc && CFT.jcc

/-- Returns the control-flow-transfer target if known. -/
def getCFTTarget (addr : Int) (bytes : List UInt8) (flags : CFTFlags) : Option Int :=
  match getCFTInfo addr bytes with
  | none => none
  | some CFT =>
    if flags.call && CFT.call || flags.jmp && CFT.jmp || flags.jcc && CFT.jcc then CFT.target else none

end E9Patch
