import E9Patch.BinarySearch
import E9Patch.OrderedMap
import E9Patch.Fallible
import E9Patch.FrontendModel

/-!
The disassembly of `e9tool.cpp`: a linear sweep over each executable section, which leaves out what the user
has excluded, decodes only what is listed if there is a list, and throws away the surroundings of what does
not look like code. The decoder itself is a parameter. The vectors that work as stacks are lists whose first
element is the last of the vector; addresses are numbers without a bound, and differences of them that the
source takes as unsigned are never negative (`nextInstr_lands`).
-/

namespace E9Tool

def INT32_MAX : Nat := 2147483647

/-! ### Exclusions -/

/-- An excluded range, without its upper bound. -/
structure Exclude where
  lo : Int
  hi : Int
  deriving DecidableEq, Repr

/-- The round of the merging: the entries from the lower bound on that overlap or touch are absorbed. -/
def absorb : List (Int × Exclude) → Exclude → List (Int × Exclude) × Exclude
  | [], e => ([], e)
  | (k, entry) :: eidx, e =>
    if entry.hi ≥ e.lo ∧ entry.lo ≤ e.hi then
      -- overlaps, so absorb it
      absorb eidx ⟨min e.lo entry.lo, max e.hi entry.hi⟩
    else if entry.lo > e.hi then ((k, entry) :: eidx, e)
    else ((k, entry) :: (absorb eidx e).1, (absorb eidx e).2)

/-- One exclusion more; the map is indexed by the upper bounds. -/
def addExclude (eidx : List (Int × Exclude)) (e : Exclude) : List (Int × Exclude) :=
  let r := absorb (eidx.dropWhile fun entry => entry.1 < e.lo) e
  OrderedMap.insert ((eidx.takeWhile fun entry => entry.1 < e.lo) ++ r.1) r.2.hi r.2

/-- The exclusions of the command line, merged. Empty ones are ignored. -/
def mergeExcludes (excludes : List Exclude) : List Exclude :=
  ((excludes.filter fun e => e.lo < e.hi).foldl addExclude []).map Prod.snd

/-- On which side of `addr` a range is. -/
def Exclude.side (addr : Int) (e : Exclude) : Ordering := BinarySearch.side addr e.lo e.hi

/-- How far to skip from `addr`. -/
def exclude (excludes : List Exclude) (addr : Int) : Nat :=
  match BinarySearch.searchList (Exclude.side addr) excludes with
  | .found mid => ((excludes[mid]?.map Exclude.hi).getD 0 - addr).toNat
  | .missing _ => 0

/-! ### Listed instructions -/

/-- The distance to the next listed address. -/
def nextInstr (disasm : List Int) (addr : Int) : Nat :=
  match disasm.getLast? with
  | none => INT32_MAX
  | some last =>
    if addr > last then INT32_MAX
    else
      match BinarySearch.searchList (fun i => BinarySearch.side addr i i) disasm with
      | .found _ => 0
      | .missing lo => (disasm[lo]?.getD 0 - addr).toNat

/-! ### Suspicious instructions -/

def isSegment (b : UInt8) : Bool := b ∈ ([0x2e, 0x36, 0x3e, 0x26, 0x64, 0x65] : List UInt8)
def isRex (b : UInt8) : Bool := 0x40 ≤ b ∧ b ≤ 0x4f

/-- The prefixes that may not be repeated. -/
def isPrefix (b : UInt8) : Bool := b = 0xf0 ∨ b = 0xf2 ∨ b = 0xf3 ∨ isSegment b ∨ isRex b

/-- The opcodes that user code does not have. -/
def isForeign (b : UInt8) : Bool :=
  b ∈ ([0x6c, 0x6d, 0x6e, 0x6f, 0xec, 0xed, 0xee, 0xef, 0xcf, 0x06, 0x07, 0x0e, 0x16, 0x17, 0x1e, 0x27, 0x2f, 0x37,
    0x3f, 0x60, 0x61, 0x82, 0x9a, 0xd4, 0xd5, 0xd6, 0xea] : List UInt8)

/-- The score behind the prefixes `before`. A `rep` prefix is not recorded, so that two different ones do
not count. -/
def scoreFrom (before : List UInt8) (score : Int) (rex seg : UInt8) : List UInt8 → Int
  | [] => INT32_MAX
  | b :: bytes =>
    if b = 0x66 ∨ b = 0x67 then scoreFrom (b :: before) score rex seg bytes
    else if isPrefix b then
      let score := score + before.count b
      if isSegment b then scoreFrom (b :: before) (if seg ≠ 0 then score + 1 else score) rex b bytes
      else if isRex b then scoreFrom (b :: before) (if rex ≠ 0 then score + 1 else score) b seg bytes
      else scoreFrom (b :: before) score rex seg bytes
    else if b = 0x00 ∧ before = [] ∧ bytes = [0x00] then 2
    else if isForeign b then INT32_MAX
    else score

/-- Assigns a "suspiciousness" score to instructions. -/
def suspiciousness (bytes : List UInt8) : Int := scoreFrom [] 0 0 0 bytes

/-! ### The loop -/

/-- An instruction as the disassembler keeps it. -/
structure Instr where
  address : Int
  size : Nat
  offset : Nat
  data : Bool
  sus : Bool
  first : Bool
  deriving DecidableEq, Repr

/-- Disassembler desync information. -/
structure Desync where
  lo : Int
  hi : Int
  addr : Int
  byte : UInt8
  deriving DecidableEq, Repr

/-- A section for disassembly. -/
structure Section where
  name : String
  addr : Int
  offset : Nat
  bytes : List UInt8
  deriving DecidableEq, Repr

/-- A decoder: the length of the first instruction of some bytes, if it can be decoded. -/
structure Decoder where
  length : List UInt8 → Option Nat
  length_pos : ∀ {bytes n}, length bytes = some n → 0 < n
  length_le : ∀ {bytes n}, length bytes = some n → n ≤ bytes.length

/-- What the loop is given: the merged exclusions, the list of `--use-disasm`, `--Dsync` and `--Dthreshold`. -/
structure Settings where
  decoder : Decoder
  excludes : List Exclude
  disasm : Option (List Int)
  option_sync : Nat
  option_threshold : Nat

/-- The variables of the loop; `code` counts from the start of the section. -/
structure Cursor where
  code : Nat
  size : Nat
  address : Int
  sync : Int
  first : Bool
  Is : List Instr
  desyncs : List Desync
  deriving DecidableEq, Repr

inductive DisasmError where
  /-- A listed instruction that cannot be decoded. -/
  | undecodable (address : Int)
  /-- The loop stopped before the end of the section. -/
  | incomplete (name : String)
  deriving DecidableEq, Repr

variable (S : Settings) (shdr : Section)

def Settings.skip (address : Int) : Nat :=
  let skip := exclude S.excludes address
  match S.disasm with
  | none => skip
  | some disasm => skip + nextInstr disasm (address + skip)

/-- Go on to the next place that is neither excluded nor unlisted. -/
def Cursor.advance (s : Cursor) : Cursor :=
  let skip := S.skip s.address
  if skip > 0 then
    { s with
      address := s.address + skip
      code := s.code + skip
      size := if skip > s.size then 0 else s.size - skip
      sync := 0
      first := true }
  else s

/-- The bytes that are left. -/
def Cursor.bytes (s : Cursor) : List UInt8 := (shdr.bytes.drop s.code).take s.size

/-- Decode an instruction; what cannot be decoded is a byte of data. -/
def decode (s : Cursor) : Option (Instr × Cursor) :=
  if s.size = 0 then none
  else
    let r := S.decoder.length (s.bytes shdr)
    let size := r.getD 1
    let I : Instr := ⟨s.address, size, shdr.offset + s.code, r.isNone, false, s.first⟩
    some (I, { s with code := s.code + size, size := s.size - size, address := s.address + size, first := false })

/-- The instructions that are thrown away before a byte of data: the lowest address of them, and what is left. -/
def discard (option_sync : Nat) : Nat → Int → List Instr → Int × List Instr
  | _, lo, [] => (lo, [])
  | i, lo, J :: Is =>
    if i < option_sync then
      if J.first then (J.address, Is) else discard option_sync ((if J.sus then 0 else i) + 1) J.address Is
    else (lo, J :: Is)

/-- Data has been detected in the code. -/
def desync (byte : UInt8) (I : Instr) (s : Cursor) : Cursor :=
  let hi := I.address + I.size
  let r := discard S.option_sync 0 I.address s.Is
  { s with
    Is := r.2
    desyncs := match s.desyncs with
      | [] => if s.sync ≥ 0 then [⟨r.1, hi, I.address, byte⟩] else []
      | d :: desyncs =>
        if r.1 ≤ d.hi then { d with hi := hi } :: desyncs
        else if s.sync ≥ 0 then ⟨r.1, hi, I.address, byte⟩ :: d :: desyncs
        else d :: desyncs
    sync := -S.option_sync }

/-- An instruction that looks like code. It is kept unless the last data is too near. -/
def accept (I : Instr) (s : Cursor) : Cursor :=
  if s.sync + 1 ≥ 0 then { s with sync := s.sync + 1, Is := I :: s.Is }
  else
    { s with
      sync := if I.sus then -S.option_sync else s.sync + 1
      desyncs := match s.desyncs with
        | [] => []
        | d :: desyncs => { d with hi := I.address + I.size } :: desyncs }

/-- Whether an instruction at the cursor is taken for data. With a list no score is given. -/
def Cursor.isData (s : Cursor) (I : Instr) : Bool :=
  I.data ∨ (if S.disasm.isSome then 0 else suspiciousness ((s.bytes shdr).take I.size)) ≥ (S.option_threshold : Int)

/-- One round of the loop: the instruction decoded, if there is one, and the variables after it. -/
def disasmRound (s : Cursor) : Except DisasmError (Option (Instr × Cursor)) :=
  let s := s.advance S
  match decode S shdr s with
  | none => .ok none
  | some (I, t) =>
    let bytes := (s.bytes shdr).take I.size
    if I.data ∧ S.disasm.isSome then .error (.undecodable I.address)
    else if s.isData S shdr I then .ok (some (I, desync S (bytes.headD 0) I t))
    else .ok (some (I, accept S { I with sus := S.disasm.isNone ∧ suspiciousness bytes > 0 } t))

/-- The loop; it ends with the variables after the last round. -/
def disasmLoop : Nat → Cursor → Except DisasmError Cursor
  | 0, s => .ok s
  | fuel + 1, s => do
    match ← disasmRound S shdr s with
    | none => .ok (s.advance S)
    | some (_, t) => disasmLoop fuel t

/-- The start of a section. -/
def Section.start (Is : List Instr) (desyncs : List Desync) : Cursor :=
  ⟨0, shdr.bytes.length, shdr.addr, 0, true, Is, desyncs⟩

/-- The disassembly of one section. Every round but the last takes a byte at least. -/
def disasmSection (Is : List Instr) (desyncs : List Desync) : Except DisasmError Cursor := do
  let s ← disasmLoop S shdr (shdr.bytes.length + 1) (shdr.start Is desyncs)
  if s.code < shdr.bytes.length then .error (.incomplete shdr.name) else .ok s

/-- The disassembly of all sections; those of the PLT are left out by default. -/
def disassemble (option_plt : Bool) (exes : List Section) : Except DisasmError (List Instr × List Desync) :=
  exes.foldlM (fun r shdr =>
    if !option_plt ∧ shdr.name ∈ [".plt", ".plt.got", ".plt.sec"] then .ok r
    else (disasmSection S shdr r.1 r.2).map fun s => (s.Is, s.desyncs)) ([], [])

end E9Tool
