import E9Patch.AnalysisModel
import E9Patch.Overlay

/-!
In-place binary editing (`analysis/e9binpatch.c`). Patches are recorded in a session and applied in one go:
those that do not fit where they go put their code into a code cave and a jump to it at their place. The
output is an image over its buffer, which is longer than the file, and a copy outside of it is a fault.
Addresses and file offsets are 64-bit words. What `calloc` and `realloc` give to the cave finder is decided
from outside. Flags, backups, comments, error texts and the growth of the patch array are left out.
-/

namespace E9Patch
open Reader Bytes Overlay

inductive E9BinPatchType where
  | BYTES
  | INSN
  | NOP
  | CALL
  | JMP
  | TRAMPOLINE
  | HOOK
  | DETOUR
  deriving DecidableEq, Repr

/-- Single patch operation. -/
structure E9BinPatch where
  type : E9BinPatchType
  address : Int
  offset : Int
  orig_size : Nat
  new_bytes : List UInt8
  new_size : Nat
  target_addr : Int
  hook_code : List UInt8
  deriving DecidableEq, Repr

structure E9CodeCave where
  address : Int
  offset : Int
  size : Nat
  writable : Bool
  section_idx : Nat
  deriving DecidableEq, Repr

structure E9CaveFinder where
  caves : List E9CodeCave
  caves_capacity : Nat
  min_cave_size : Nat
  deriving DecidableEq, Repr

structure E9BinPatchSession where
  data : Block
  bin : E9Binary
  patches : List E9BinPatch
  cave_finder : Option E9CaveFinder
  output : Nat → UInt8
  finalized : Bool

/-- Which allocations of the cave finder succeed: that of the finder, and that of a larger array. -/
structure CaveMemory where
  finder : Bool
  grow : Nat → Bool

def E9_SECFLAG_WRITE : Nat := 1
def E9_SECFLAG_EXEC : Nat := 4

namespace E9BinPatchSession

def output_size (s : E9BinPatchSession) : Nat := s.data.size

def output_capacity (s : E9BinPatchSession) : Nat := s.data.size + 4096

end E9BinPatchSession

/-- The file, and zeros behind it. -/
def fileImage (d : Block) : Nat → UInt8 := fun k => d.get k

def e9_binpatch_session_create (data : Block) (bin : E9Binary) : E9BinPatchSession :=
  ⟨data, bin, [], none, fileImage data, false⟩

/-! ### Addresses -/

def SectionInfo.contains (sec : SectionInfo) (vaddr : Int) : Bool :=
  sec.addr ≤ vaddr ∧ vaddr < ptr (sec.addr + sec.size)

/-- The file offset of an address; every section gives the same, and zero is that of an unknown address. -/
def e9_binpatch_vaddr_to_offset (d : Block) (bin : E9Binary) (vaddr : Int) : Int :=
  if bin.sections.any fun sec => sec.contains vaddr then ptr (vaddr - bin.base_address)
  else if bin.base_address ≤ vaddr ∧ vaddr < ptr (bin.base_address + d.size) then ptr (vaddr - bin.base_address)
  else 0

/-! ### Generated code -/

def NOP_AARCH64 : List UInt8 := [0x1F, 0x20, 0x03, 0xD5]

/-- The no-operation of `size` bytes, from one to nine. -/
def nopSeq : Nat → List UInt8
  | 1 => [0x90]
  | 2 => [0x66, 0x90]
  | 3 => [0x0F, 0x1F, 0x00]
  | 4 => [0x0F, 0x1F, 0x40, 0x00]
  | 5 => [0x0F, 0x1F, 0x44, 0x00, 0x00]
  | 6 => [0x66, 0x0F, 0x1F, 0x44, 0x00, 0x00]
  | 7 => [0x0F, 0x1F, 0x80, 0x00, 0x00, 0x00, 0x00]
  | 8 => [0x0F, 0x1F, 0x84, 0x00, 0x00, 0x00, 0x00, 0x00]
  | 9 => [0x66, 0x0F, 0x1F, 0x84, 0x00, 0x00, 0x00, 0x00, 0x00]
  | _ => []

/-- The loop over an area of `size` bytes, which has at most `size` rounds. -/
def genNops : Nat → Nat → List UInt8
  | 0, _ => []
  | fuel + 1, remain =>
    if remain = 0 then []
    else nopSeq (min remain 9) ++ genNops fuel (remain - min remain 9)

/-- What is written over an area of `size` bytes. On AArch64 a rest of less than four stays as it is. -/
def e9_binpatch_gen_nops (arch : Arch) (size : Nat) : List UInt8 :=
  if arch = .AARCH64 then (List.replicate (size / 4) NOP_AARCH64).flatten else genNops size size

/-- The immediate of a branch; C divides towards zero. -/
def imm26 (offset : Int) : Int := offset.tdiv 4 % 2 ^ 26

/-- The offset is one of an AArch64 branch. -/
def branchRange (offset : Int) : Bool := -(128 * 1024 * 1024) ≤ offset ∧ offset < 128 * 1024 * 1024

def fitsRel32 (offset : Int) : Bool := -2 ^ 31 ≤ offset ∧ offset ≤ 2 ^ 31 - 1

def e9_binpatch_gen_jmp (arch : Arch) (src dst : Int) : List UInt8 :=
  if arch = .AARCH64 then
    let offset := signed64 (dst - src)
    -- the bits of the opcode and of the immediate do not meet
    if branchRange offset then le32 (0x14000000 + imm26 offset)
    else [0x50, 0x00, 0x00, 0x58, 0x00, 0x02, 0x1F, 0xD6] ++ le64 dst
  else
    let offset := signed64 (dst - (src + 5))
    if fitsRel32 offset then 0xE9 :: le32 offset
    else [0xFF, 0x25, 0x00, 0x00, 0x00, 0x00] ++ le64 dst

def e9_binpatch_gen_call (arch : Arch) (src dst : Int) : List UInt8 :=
  if arch = .AARCH64 then
    let offset := signed64 (dst - src)
    if branchRange offset then le32 (0x94000000 + imm26 offset)
    else [0x50, 0x00, 0x00, 0x58, 0x00, 0x02, 0x3F, 0xD6, 0x03, 0x00, 0x00, 0x14] ++ le64 dst
  else
    let offset := signed64 (dst - (src + 5))
    if fitsRel32 offset then 0xE8 :: le32 offset
    else [0x48, 0xB8] ++ le64 dst ++ [0xFF, 0xD0]

/-! ### The size of an instruction -/

def isLegacyPrefix (b : UInt8) : Bool :=
  b ∈ ([0xF0, 0xF2, 0xF3, 0x2E, 0x36, 0x3E, 0x26, 0x64, 0x65, 0x66, 0x67] : List UInt8)

def skipPrefixes (d : Block) (code : Int) (max_len : Nat) : Nat → Nat → Nat
  | 0, pos => pos
  | n + 1, pos =>
    if pos < max_len ∧ isLegacyPrefix (d.get (code + pos)) then skipPrefixes d code max_len n (pos + 1) else pos

/-- What ModRM byte, SIB byte and displacement take up, from `pos` on. -/
def skipModRM (d : Block) (code : Int) (max_len pos : Nat) : Nat :=
  if pos < max_len then
    let modrm := d.get (code + pos)
    let mod := (modrm >>> 6) &&& 3
    let rm := modrm &&& 7
    let pos := pos + 1
    let pos := if mod ≠ 3 ∧ rm = 4 ∧ pos < max_len then pos + 1 else pos
    if mod = 0 ∧ rm = 5 then pos + 4
    else if mod = 1 then pos + 1
    else if mod = 2 then pos + 4
    else pos
  else pos

/-- The opcodes of one byte whose instruction ends a fixed number of bytes behind them. -/
def simpleOpcode (opcode : UInt8) : Option Nat :=
  if opcode &&& 0xF8 = 0x50 then some 0
  else if opcode &&& 0xF8 = 0x58 then some 0
  else if opcode &&& 0xF8 = 0xB8 then some 4
  else if opcode &&& 0xF0 = 0x70 then some 1
  else if opcode = 0xEB then some 1
  else if opcode = 0xE9 then some 4
  else if opcode = 0xE8 then some 4
  else if opcode = 0xC3 ∨ opcode = 0xCB then some 0
  else if opcode = 0xC2 ∨ opcode = 0xCA then some 2
  else if opcode = 0x90 then some 0
  else if opcode = 0xCC then some 0
  else none

def opcodeHasModRM (opcode : UInt8) : Bool :=
  opcode &&& 0xC0 = 0x00 ∨ opcode &&& 0xF8 = 0x80 ∨ opcode &&& 0xF8 = 0x88 ∨ opcode &&& 0xF8 = 0xF8 ∨
    opcode = 0x63 ∨ opcode = 0x69 ∨ opcode = 0x6B ∨ opcode = 0x8D ∨ opcode = 0xC6 ∨ opcode = 0xC7

/-- The last of the assignments counts. -/
def opcodeImmSize (opcode : UInt8) : Nat :=
  if opcode = 0x6A then 1
  else if opcode = 0x68 then 4
  else if opcode &&& 0xF8 = 0xB0 then 1
  else if opcode &&& 0xFE = 0x04 then 1
  else 0

/-- The rest of the instruction behind the opcode `0x0F`; `pos` is behind it. -/
def twoByteSize (d : Block) (code : Int) (max_len pos : Nat) : Nat :=
  if pos ≥ max_len then 0
  else
    let opcode := d.get (code + pos)
    let pos := pos + 1
    if opcode = 0x38 ∨ opcode = 0x3A then
      if pos ≥ max_len then 0
      else skipModRM d code max_len (pos + 1) + if opcode = 0x3A then 1 else 0
    else if 0x80 ≤ opcode ∧ opcode ≤ 0x8F then pos + 4
    else skipModRM d code max_len pos

def insnSize (d : Block) (code : Int) (max_len : Nat) : Nat :=
  let pos := skipPrefixes d code max_len max_len 0
  let pos := if pos < max_len ∧ d.get (code + pos) &&& 0xF0 = 0x40 then pos + 1 else pos
  if pos ≥ max_len then 0
  else
    let opcode := d.get (code + pos)
    let pos := pos + 1
    if opcode = 0x0F then twoByteSize d code max_len pos
    else
      match simpleOpcode opcode with
      | some n => pos + n
      | none => (if opcodeHasModRM opcode then skipModRM d code max_len pos else pos) + opcodeImmSize opcode

def e9_binpatch_insn_size_at (d : Block) (bin : E9Binary) (addr : Int) : Nat :=
  let offset := e9_binpatch_vaddr_to_offset d bin addr
  if offset = 0 ∨ offset ≥ d.size then 0
  else if bin.arch = .AARCH64 then 4
  else insnSize d offset (min (d.size - offset).toNat 15)

/-! ### Code caves -/

/-- The loop over a section: the run of unused bytes that it is in, and the finder. -/
structure CaveScan where
  in_run : Bool
  run_start : Nat
  run_len : Nat
  finder : E9CaveFinder
  deriving DecidableEq, Repr

/-- How many unused bytes there are at index `i` of the section at `sec_offset`. -/
def unusedAt (d : Block) (arch : Arch) (sec_offset : Int) (sec_size i : Nat) : Except Fault Nat :=
  if arch = .AARCH64 then
    if i % 4 = 0 ∧ i + 4 ≤ sec_size then do
      let insn ← read d (ptr (sec_offset + i)) 4
      .ok (if insn = 0xD503201F then 4 else 0)
    else .ok 0
  else do
    let b ← read d (ptr (sec_offset + i)) 1
    .ok (if b = 0x00 ∨ b = 0x90 ∨ b = 0xCC then 1 else 0)

/-- Go on with `n` more unused bytes at `i`. -/
def CaveScan.extend (st : CaveScan) (i n : Nat) : CaveScan :=
  if st.in_run then { st with run_len := st.run_len + n }
  else { st with in_run := true, run_start := i, run_len := n }

/-- The cave that the run is. -/
def CaveScan.cave (st : CaveScan) (sec : SectionInfo) (sec_offset : Int) (s : Nat) : E9CodeCave :=
  ⟨ptr (sec.addr + st.run_start), ptr (sec_offset + st.run_start), st.run_len,
    sec.flags &&& E9_SECFLAG_WRITE ≠ 0, s⟩

def E9CaveFinder.add (f : E9CaveFinder) (cave : E9CodeCave) : E9CaveFinder := { f with caves := f.caves ++ [cave] }

/-- Make room for one more cave, or fail. -/
def E9CaveFinder.reserve (f : E9CaveFinder) (mem : CaveMemory) : Option E9CaveFinder :=
  if f.caves.length ≥ f.caves_capacity then
    if mem.grow (f.caves_capacity * 2) then some { f with caves_capacity := f.caves_capacity * 2 } else none
  else some f

/-- The end of a run inside the section. -/
def CaveScan.endRun (st : CaveScan) (mem : CaveMemory) (sec : SectionInfo) (sec_offset : Int) (s : Nat) :
    Option CaveScan :=
  if st.in_run then
    if st.run_len ≥ st.finder.min_cave_size then
      (st.finder.reserve mem).map fun f =>
        { st with in_run := false, run_len := 0, finder := f.add (st.cave sec sec_offset s) }
    else some { st with in_run := false, run_len := 0 }
  else some st

/-- The loop over the bytes of a section from `i` on, in at most `fuel` rounds, and whether it got through. -/
def scanSection (d : Block) (arch : Arch) (mem : CaveMemory) (sec : SectionInfo) (sec_offset : Int) (s : Nat) :
    Nat → Nat → CaveScan → Except Fault (Bool × CaveScan)
  | 0, _, st => .ok (true, st)
  | fuel + 1, i, st =>
    if i < sec.size then do
      let n ← unusedAt d arch sec_offset sec.size i
      if n ≠ 0 then scanSection d arch mem sec sec_offset s fuel (i + n) (st.extend i n)
      else
        match st.endRun mem sec sec_offset s with
        | none => .ok (false, st)
        | some st => scanSection d arch mem sec sec_offset s fuel (i + 1) st
    else .ok (true, st)

/-- A run that the end of the section ends is kept only where there is room for it. -/
def CaveScan.finish (st : CaveScan) (sec : SectionInfo) (sec_offset : Int) (s : Nat) : E9CaveFinder :=
  if st.in_run ∧ st.run_len ≥ st.finder.min_cave_size ∧ st.finder.caves.length < st.finder.caves_capacity then
    st.finder.add (st.cave sec sec_offset s)
  else st.finder

/-- The caves of section number `s`. -/
def findInSection (d : Block) (bin : E9Binary) (mem : CaveMemory) (sec : SectionInfo) (s : Nat) (f : E9CaveFinder) :
    Except Fault (Bool × E9CaveFinder) :=
  if sec.flags &&& E9_SECFLAG_EXEC = 0 then .ok (true, f)
  else
    let sec_offset := e9_binpatch_vaddr_to_offset d bin sec.addr
    if ptr (sec_offset + sec.size) > d.size then .ok (true, f)
    else do
      let (ok, st) ← scanSection d bin.arch mem sec sec_offset s sec.size 0 ⟨false, 0, 0, f⟩
      .ok (ok, if ok then st.finish sec sec_offset s else st.finder)

def findInSections (d : Block) (bin : E9Binary) (mem : CaveMemory) :
    List SectionInfo → Nat → E9CaveFinder → Except Fault (Bool × E9CaveFinder)
  | [], _, f => .ok (true, f)
  | sec :: secs, s, f => do
    let (ok, f) ← findInSection d bin mem sec s f
    if ok then findInSections d bin mem secs (s + 1) f else .ok (false, f)

/-- The finder that there is, or a new one. -/
def caveFinder (mem : CaveMemory) (finder : Option E9CaveFinder) (min_size : Nat) : Option E9CaveFinder :=
  match finder with
  | some f => some f
  | none => if mem.finder then some ⟨[], 64, if min_size > 0 then min_size else 8⟩ else none

def e9_caves_find (d : Block) (bin : E9Binary) (mem : CaveMemory) (finder : Option E9CaveFinder) (min_size : Nat) :
    Except Fault (Int × Option E9CaveFinder) :=
  match caveFinder mem finder min_size with
  | none => .ok (-1, none)
  | some f => do
    let (ok, f) ← findInSections d bin mem bin.sections 0 { f with caves := [] }
    .ok (if ok then f.caves.length else -1, some f)

/-- The smallest cave that fits: the loop over the caves from number `i` on. -/
def bestCave (size : Nat) : List E9CodeCave → Nat → Option (Nat × E9CodeCave) → Option (Nat × E9CodeCave)
  | [], _, best => best
  | cave :: caves, i, best =>
    bestCave size caves (i + 1)
      (if cave.size ≥ size ∧ (best.all fun b => decide (cave.size < b.2.size)) then some (i, cave) else best)

/-- Allocate from the start of a cave. -/
def E9CodeCave.take (cave : E9CodeCave) (size : Nat) : E9CodeCave :=
  { cave with address := ptr (cave.address + size), offset := ptr (cave.offset + size), size := cave.size - size }

def e9_caves_alloc (finder : Option E9CaveFinder) (size : Nat) : Int × Option E9CaveFinder :=
  match finder with
  | none => (0, none)
  | some f =>
    match bestCave size f.caves 0 none with
    | none => (0, some f)
    | some (i, best) => (best.address, some { f with caves := f.caves.set i (best.take size) })

/-! ### Recording -/

namespace E9BinPatchSession

def add_patch (s : E9BinPatchSession) (p : E9BinPatch) : Int × E9BinPatchSession :=
  if p.offset = 0 ∧ p.address ≠ 0 then
    let offset := e9_binpatch_vaddr_to_offset s.data s.bin p.address
    if offset = 0 then (-1, s)
    else (s.patches.length, { s with patches := s.patches ++ [{ p with offset := offset }] })
  else (s.patches.length, { s with patches := s.patches ++ [p] })

/-- A recorder refuses a session that is finalized. -/
def record (s : E9BinPatchSession) (p : E9BinPatch) : Int × E9BinPatchSession :=
  if s.finalized then (-1, s) else s.add_patch p

def e9_binpatch_bytes (s : E9BinPatchSession) (addr : Int) (bytes : List UInt8) : Int × E9BinPatchSession :=
  if bytes.length = 0 then (-1, s)
  else s.record ⟨.BYTES, addr, 0, bytes.length, bytes, bytes.length, 0, []⟩

def e9_binpatch_nop (s : E9BinPatchSession) (addr : Int) (size : Nat) : Int × E9BinPatchSession :=
  if size = 0 then (-1, s) else s.record ⟨.NOP, addr, 0, size, [], size, 0, []⟩

def e9_binpatch_insn (s : E9BinPatchSession) (addr : Int) (new_insn : List UInt8) : Int × E9BinPatchSession :=
  let orig_size := e9_binpatch_insn_size_at s.data s.bin addr
  if new_insn.length = 0 ∨ orig_size = 0 then (-1, s)
  else s.record ⟨if new_insn.length > orig_size then .TRAMPOLINE else .INSN, addr, 0, orig_size, new_insn,
    new_insn.length, 0, []⟩

/-- The size of a branch that is patched. -/
def branchSize (s : E9BinPatchSession) : Nat := if s.bin.arch = .AARCH64 then 4 else 5

def e9_binpatch_call (s : E9BinPatchSession) (call_addr new_target : Int) : Int × E9BinPatchSession :=
  s.record ⟨.CALL, call_addr, 0, s.branchSize, [], s.branchSize, new_target, []⟩

def e9_binpatch_jmp (s : E9BinPatchSession) (jmp_addr new_target : Int) : Int × E9BinPatchSession :=
  s.record ⟨.JMP, jmp_addr, 0, s.branchSize, [], s.branchSize, new_target, []⟩

def e9_binpatch_hook (s : E9BinPatchSession) (func_addr : Int) (hook_code : List UInt8) : Int × E9BinPatchSession :=
  if hook_code.length = 0 then (-1, s)
  else s.record ⟨.HOOK, func_addr, 0, e9_binpatch_insn_size_at s.data s.bin func_addr, [], 0, 0, hook_code⟩

def e9_binpatch_detour (s : E9BinPatchSession) (func_addr : Int) (new_func : List UInt8) : Int × E9BinPatchSession :=
  if new_func.length = 0 then (-1, s) else s.record ⟨.DETOUR, func_addr, 0, 0, [], 0, 0, new_func⟩

end E9BinPatchSession

/-! ### Applying -/

def overlaps (p q : E9BinPatch) : Bool :=
  p.offset < ptr (q.offset + q.orig_size) ∧ q.offset < ptr (p.offset + p.orig_size)

def validatePatches : List E9BinPatch → Bool
  | [] => true
  | p :: ps => (ps.all fun q => !overlaps p q) && validatePatches ps

def e9_binpatch_validate (s : E9BinPatchSession) : Int := if validatePatches s.patches then 0 else -1

/-- The patch needs a code cave. -/
def E9BinPatch.needsCave (p : E9BinPatch) : Bool := p.type = .TRAMPOLINE ∨ p.type = .HOOK ∨ p.type = .DETOUR

/-- A copy of `bytes` over the first bytes of the patch, and no-operations up to its size. -/
def padded (arch : Arch) (p : E9BinPatch) (bytes : List UInt8) (size : Nat) : List (Write UInt8) :=
  ⟨p.offset.toNat, bytes⟩ ::
    if bytes.length < size then [⟨p.offset.toNat + bytes.length, e9_binpatch_gen_nops arch (size - bytes.length)⟩]
    else []

/-- The copies of a call or jump that is patched, if it is not too large. -/
def branchCopies (arch : Arch) (p : E9BinPatch) (branch : List UInt8) : Option (List (Write UInt8)) :=
  if branch.length > p.orig_size then none else some (padded arch p branch p.orig_size)

/-- The jump at the patch to the cave. -/
def jumpCopies (arch : Arch) (p : E9BinPatch) (cave_addr : Int) : List (Write UInt8) :=
  let jmp := e9_binpatch_gen_jmp arch p.address cave_addr
  if jmp.length ≤ p.orig_size ∨ p.orig_size = 0 then
    padded arch p jmp (if p.orig_size > 0 then p.orig_size else jmp.length)
  else []

/-- The jump from a hook in the cave back behind the patch. -/
def jumpBack (arch : Arch) (p : E9BinPatch) (cave_addr : Int) : List UInt8 :=
  e9_binpatch_gen_jmp arch (ptr (cave_addr + p.hook_code.length)) (ptr (p.address + p.orig_size))

/-- The copies of a patch that has a cave: none if the address of the cave has no place in the file. -/
def caveCopies (d : Block) (bin : E9Binary) (p : E9BinPatch) (cave_addr : Int) : List (Write UInt8) :=
  let cave_offset := e9_binpatch_vaddr_to_offset d bin cave_addr
  if cave_offset > 0 ∧ ptr (cave_offset + p.hook_code.length) ≤ d.size then
    [⟨cave_offset.toNat, p.hook_code⟩] ++
      (if p.type = .HOOK then [⟨cave_offset.toNat + p.hook_code.length, jumpBack bin.arch p cave_addr⟩] else []) ++
      jumpCopies bin.arch p cave_addr
  else []

/-- The copies that a patch makes into the output, or an error; `cave_addr` is the cave that it has. -/
def patchCopies (d : Block) (bin : E9Binary) (p : E9BinPatch) (cave_addr : Int) : Option (List (Write UInt8)) :=
  match p.type with
  | .BYTES => some [⟨p.offset.toNat, p.new_bytes⟩]
  | .NOP => some [⟨p.offset.toNat, e9_binpatch_gen_nops bin.arch p.new_size⟩]
  | .INSN => some (padded bin.arch p p.new_bytes p.orig_size)
  | .CALL => branchCopies bin.arch p (e9_binpatch_gen_call bin.arch p.address p.target_addr)
  | .JMP => branchCopies bin.arch p (e9_binpatch_gen_jmp bin.arch p.address p.target_addr)
  | .TRAMPOLINE | .HOOK | .DETOUR => if cave_addr = 0 then none else some (caveCopies d bin p cave_addr)

/-- The finder of the session; the caves are searched for if that was not done, whatever comes of it. -/
def finderFor (d : Block) (bin : E9Binary) (mem : CaveMemory) (finder : Option E9CaveFinder) :
    Except Fault (Option E9CaveFinder) :=
  match finder with
  | some f => .ok (some f)
  | none => (·.2) <$> e9_caves_find d bin mem none 16

/-- The cave of a patch that needs one. -/
def giveCave (d : Block) (bin : E9Binary) (mem : CaveMemory) (finder : Option E9CaveFinder) (p : E9BinPatch) :
    Except Fault (Int × Option E9CaveFinder) :=
  if p.needsCave then do
    let finder ← finderFor d bin mem finder
    .ok (e9_caves_alloc finder (p.hook_code.length + 32))
  else .ok (0, finder)

/-- The loop over the patches, up to the first that fails. -/
def applyPatches (d : Block) (bin : E9Binary) (mem : CaveMemory) (capacity : Nat) :
    List E9BinPatch → Option E9CaveFinder → (Nat → UInt8) → Except Fault (Int × Option E9CaveFinder × (Nat → UInt8))
  | [], finder, output => .ok (0, finder, output)
  | p :: ps, finder, output =>
    if ptr (p.offset + p.new_size) > capacity then .ok (-1, finder, output)
    else do
      let (cave_addr, finder) ← giveCave d bin mem finder p
      match patchCopies d bin p cave_addr with
      | none => .ok (-1, finder, output)
      | some copies =>
        if copies.all fun w => w.data.length = 0 ∨ w.off + w.data.length ≤ capacity then
          applyPatches d bin mem capacity ps finder (overlay output copies)
        else .error .outOfBounds

def e9_binpatch_apply (mem : CaveMemory) (s : E9BinPatchSession) : Except Fault (Int × E9BinPatchSession) :=
  if s.finalized then .ok (0, s)
  else if e9_binpatch_validate s < 0 then .ok (-1, s)
  else do
    let (r, finder, output) ← applyPatches s.data s.bin mem s.output_capacity s.patches s.cave_finder s.output
    .ok (r, { s with cave_finder := finder, output := output, finalized := r = 0 })

/-- The output is the file again; what is behind it in the buffer stays. -/
def e9_binpatch_revert_all (s : E9BinPatchSession) : Int × E9BinPatchSession :=
  (0, { s with output := fun k => if k < s.data.size then s.data.get k else s.output k, finalized := false })

end E9Patch
