import E9Patch.TacticsModel

/-!
The messages of the backend (`e9api.cpp`) and the queue of instructions that wait to be patched. A
message has the values of each of its parameters, in the order they came in; two values of one
parameter are a duplicate.
-/

namespace E9Patch
open Bytes Binary

def ABSOLUTE_ADDRESS (p : Int) : Int := p + 0x6000000000000000

/-- The value of a parameter. -/
def param {α : Type} (values : List α) (missing : String) : Except Fault α :=
  match values.getLast? with
  | none => .error (.error missing)
  | some v => .ok v

/-- `if (p) error(message);` -/
def failIf (p : Prop) [Decidable p] (message : String) : Except Fault Unit :=
  if p then .error (.error message) else .ok ()

/-- Whether a parameter was given twice. -/
def dup {α : Type} (values : List α) : Bool := values.length > 1

/-! ### Options -/

/-- Target analysis, with what it finds. -/
def targetAnalysis (B : Binary) (analysis : Option (Nat → Bool)) : Binary :=
  if B.targets.isSome ∨ !B.options.option_OCFR then B
  else match B.mode with
    | .ELF_EXE | .ELF_DSO => { B with targets := analysis }
    | _ => { B with options := { B.options with option_OCFR := false } }

/-- Parse & handle options. -/
def applyOptions (B : Binary) (options : Options) (analysis : Option (Nat → Bool)) : Binary :=
  let B := { B with options := options }
  let B := match B.mode with
    | .ELF_EXE | .ELF_DSO => { B with config := options.option_loader_base }
    | _ => B
  targetAnalysis B analysis

def isTarget (B : Binary) (offset : Nat) : Bool := B.targets.all fun targets => targets offset

/-! ### The patch queue -/

def unqueueByte (I : Nat) (B : Binary) (i : Nat) : Except Fault Binary := do
  assert (B.STATE I i = STATE_QUEUED)
  .ok (B.setState ((B.Is I).offset + i) STATE_INSTRUCTION)

/-- What `queueFlush` does with a queued instruction before it is patched. -/
def unqueue (I : Nat) (B : Binary) : Except Fault Binary := do
  let B ← (List.range (B.Is I).size).foldlM (unqueueByte I) B
  let debug := B.options.option_trap_all || (B.Is I).addr ∈ B.options.option_trap
  .ok (B.setInstr I { B.Is I with debug := debug })

/-- The loop body of `queueFlush`. An instruction that is no longer queued was part of a T0 batch. -/
def flushEntry (B : Binary) : PatchEntry → Except Fault Binary
  | .options options analysis => .ok (applyOptions B options analysis)
  | .patch I T =>
    if B.STATE I 0 = STATE_QUEUED then do
      let B ← unqueue I B
      let r ← Binary.patch I (.user T) B
      .ok r.1
    else .ok B

/-- Whether an entry is due when the queue is flushed up to `cursor`. -/
def due (B : Binary) (cursor : Int) : PatchEntry → Bool
  | .options _ _ => true
  | .patch I _ => (B.Is I).addr > cursor

def flushLoop (cursor : Int) : List PatchEntry → Binary → Except Fault Binary
  | [], B => .ok { B with Q := [] }
  | entry :: Q, B =>
    if due B cursor entry then do
      let B ← flushEntry { B with Q := entry :: Q } entry
      flushLoop cursor Q { B with Q := Q }
    else .ok { B with Q := entry :: Q }

/-- The distance that patching stays behind the cursor. -/
def lookahead : Int := max (T0_LIMIT * 15) (2 ^ 7 - 1 + 2 + 15) + 32

/-- Flush the patching queue up to the new cursor. -/
def queueFlush (B : Binary) (cursor : Int) : Except Fault Binary := do
  failIf (B.cursor ≤ cursor)
    "failed to patch instruction at address 0x%lx; \"patch\" messages were not send in reverse order"
  flushLoop (cursor + lookahead) B.Q { B with cursor := cursor }

def queueByte (I : Nat) (B : Binary) (i : Nat) : Except Fault Binary := do
  assert (B.STATE I i = STATE_INSTRUCTION)
  .ok (B.setState ((B.Is I).offset + i) STATE_QUEUED)

/-- The part of `queuePatch` before the flush. -/
def enqueue (B : Binary) (I : Nat) (T : Template) : Except Fault Binary := do
  let B ← (List.range (B.Is I).size).foldlM (queueByte I) B
  .ok { B with Q := B.Q ++ [.patch I T] }

/-- Queue an instruction for patching. -/
def queuePatch (B : Binary) (I : Nat) (T : Template) : Except Fault Binary := do
  let B ← enqueue B I T
  if !B.options.option_batch then queueFlush B (B.Is I).addr else .ok B

/-! ### Messages -/

/-- The loop of `InstrSet::find`; position `mid` of the array is the instruction that arrived
`count - 1 - mid`-th. -/
def findLoop (B : Binary) (offset : Int) : Nat → Int → Int → Option Nat
  | 0, _, _ => none
  | fuel + 1, lo, hi =>
    if lo > hi then none
    else
      let mid := (lo + hi) / 2
      let k := (B.count - 1 - mid).toNat
      if offset > (B.Is k).offset then findLoop B offset fuel (mid + 1) hi
      else if offset < (B.Is k).offset then findLoop B offset fuel lo (mid - 1)
      else some k

/-- Find the instruction for the given offset. -/
def findInstr (B : Binary) (offset : Int) : Option Nat :=
  findLoop B offset (B.count + 1) 0 (B.count - 1)

/-- The loop of `parseInstruction` over the bytes of the new instruction. -/
def claimByte (I : Nat) (B : Binary) (i : Nat) : Except Fault Binary :=
  let s := B.STATE I i
  if s = STATE_UNKNOWN then .ok (B.setState ((B.Is I).offset + i) STATE_INSTRUCTION)
  else if s = STATE_INSTRUCTION.lock ∨ s = STATE_PATCHED ∨ s = STATE_PATCHED.lock ∨ s = STATE_QUEUED ∨
      s = STATE_FREE then
    .error (.error "failed to insert instruction at address 0x%lx, the corresponding virtual memory has already been patched")
  else
    .error (.error "failed to insert instruction at address 0x%lx, the corresponding virtual memory has already been allocated with state (0x%.2X)")

/-- `new (B->Is.alloc()) Instr(..)`. -/
def newInstr (B : Binary) (offset : Nat) (address : Int) (length : Nat) : Binary :=
  let bytes := (List.range length).map fun i => B.original (offset + i)
  let pcrel_idx := getInstrPCRelativeIndex bytes
  let I : Instr := { Instr.zero with
    offset := offset, addr := address, size := length
    pcrel32_idx := if pcrel_idx ≠ 0 ∧ ¬length - pcrel_idx < 4 then pcrel_idx else 0
    pcrel8_idx := if pcrel_idx ≠ 0 ∧ length - pcrel_idx < 4 then pcrel_idx else 0
    pic := B.pic, target := isTarget B offset }
  { B.setInstr B.count I with count := B.count + 1 }

/-- Parse an instruction message. -/
def parseInstruction (B : Binary) (address length offset : List Int) : Except Fault Binary := do
  let addr ← param address
    "failed to parse \"instruction\" message (id=%u); missing \"address\" parameter"
  let len ← param length
    "failed to parse \"instruction\" message (id=%u); missing \"length\" parameter"
  let len := toU64 len
  failIf (len = 0 ∨ len > 15)
    "failed to parse \"instruction\" message (id=%u); \"length\" parameter must be within the range 1..15"
  let off ← param offset
    "failed to parse \"instruction\" message (id=%u); missing \"offset\" parameter"
  failIf (off < 0)
    "failed to parse \"instruction\" message (id=%u); the instruction offset (%zd) is negative"
  failIf (off + len > B.size)
    "failed to parse \"instruction\" message (id=%u); the instruction offset+length (%zd+%zu) overflows the end-of-file \"%s\" (with size %zu)"
  failIf (dup address ∨ dup length ∨ dup offset)
    "failed to parse \"instruction\" message (id=%u); duplicate parameters detected"
  let J := B.Is (B.count - 1)
  failIf (B.count > 0 ∧ (off ≥ J.offset ∨ addr ≥ J.addr))
    "failed to insert instruction at address 0x%lx, \"instruction\" messages were not sent in reverse order"
  failIf (B.count > 0 ∧ (off + len > J.offset ∨ addr + len > J.addr))
    "failed to insert instruction at address 0x%lx, instruction overlaps with another instruction at 0x%lx"
  (List.range len).foldlM (claimByte B.count) (newInstr B off.toNat addr len)

/-- Parse a patch message. -/
def parsePatch (B : Binary) (trampoline : List Template) (offset : List Int)
    (metadata : List (List MetaEntry)) : Except Fault Binary := do
  let T ← param trampoline
    "failed to parse \"patch\" message (id=%u); missing \"trampoline\" parameter"
  let off ← param offset
    "failed to parse \"patch\" message (id=%u); missing \"offset\" parameter"
  failIf (dup trampoline ∨ dup offset ∨ dup metadata)
    "failed to parse \"patch\" message (id=%u); duplicate parameters detected"
  match findInstr B off with
  | none =>
    .error (.error "failed to parse \"patch\" message (id=%u); no matching instruction at offset (%zd)")
  | some I =>
    failIf (B.Is I).patch
      "failed to parse \"patch\" message (id=%u); instruction at address (0x%lx) is already queued for patching"
    let B := B.setInstr I { B.Is I with
      patch := true, metadata := metadata.getLast?.getD [], T := some (.user T) }
    queuePatch B I T

/-- Parse an option message. -/
def parseOptions (B : Binary) (argv : List (Options × Option (Nat → Bool))) : Except Fault Binary := do
  let o ← param argv "failed to parse \"options\" message (id=%u); missing \"argv\" parameter"
  failIf (dup argv) "failed to parse \"options\" message (id=%u); duplicate parameters detected"
  .ok (if B.cursor = INTPTR_MAX then applyOptions B o.1 o.2
    else { B with Q := B.Q ++ [.options o.1 o.2] })

/-- One of the three allocations of a reservation with bytes. -/
def reserveTrampoline (B : Binary) (a : Int × Option Template) : Except Fault Binary :=
  match a.2 with
  | none => .ok B
  | some T => do
    match ← B.allocate a.1 a.1 (.user T) none false with
    | none => .error (.error "failed to reserve address space at address %s%s0x%lx")
    | some (B, _) => .ok B

def makePadding (id len : Nat) : Option Template :=
  if len = 0 then none else some ⟨id, [.ZEROES len]⟩

/-- A reservation by its length. -/
def reserveLength (arith : Int → Except Overflow Int) (B : Binary) (addr len : Int) : Except Fault Binary := do
  match ← B.reserve arith addr (signed64 (addr + len)) with
  | none => .error (.error "failed to reserve address space at address %s%s0x%lx")
  | some B => .ok B

/-- Parse a reserve message. The parameters for the loader (initialisation functions, protections) are
left out. -/
def parseReserve (B : Binary) (absolute : List Bool) (address : List Int) (bytes : List Template)
    (length : List Int) : Except Fault Binary := do
  let addr ← param address
    "failed to parse \"reserve\" message (id=%u); missing \"address\" parameter"
  failIf (bytes = [] ∧ length = [])
    "failed to parse \"reserve\" message (id=%u); missing \"bytes\" parameter or \"length\" parameter"
  failIf (bytes ≠ [] ∧ length ≠ [])
    "failed to parse \"reserve\" message (id=%u); only one of the \"bytes\" or \"length\" parameters can be specified"
  let addr := if absolute.getLast?.getD false ∧ B.pic then ABSOLUTE_ADDRESS addr else addr
  failIf (dup absolute ∨ dup address ∨ dup bytes ∨ dup length)
    "failed to parse \"reserve\" message (id=%u); duplicate parameters detected"
  match bytes.getLast?, length.getLast? with
  | some T, _ => do
    let size ← getTrampolineSize B (.user T) none
    let length_lo := addr % PAGE_SIZE
    let length_hi := (PAGE_SIZE - (length_lo + size) % PAGE_SIZE) % PAGE_SIZE
    [(addr - length_lo, makePadding 0 length_lo.toNat), (addr, some T),
      (addr + size, makePadding 1 length_hi.toNat)].foldlM reserveTrampoline B
  | none, some len =>
    if len = 0 then .ok B
    else reserveLength checked B addr len
  | none, none => .ok B

/-- Parse a trampoline message. -/
def parseTrampoline (B : Binary) (name : List String) (template : List Template) :
    Except Fault Binary := do
  let n ← param name
    "failed to parse \"trampoline\" message (id=%u); missing \"name\" parameter"
  failIf (n.toList.head? ≠ some '$')
    "failed to parse \"trampoline\" message (id=%u); \"name\" parameter must begin with a `$', found \"%s\""
  let T ← param template
    "failed to parse \"trampoline\" message (id=%u); missing \"template\" parameter"
  failIf (dup name ∨ dup template)
    "failed to parse \"trampoline\" message (id=%u); duplicate parameters detected"
  failIf (B.Ts.any fun m => m.name = n)
    "failed to parse \"trampoline\" message (id=%u); a trampoline with name \"%s\" already exists"
  .ok { B with Ts := B.Ts ++ [⟨n, .user T⟩] }

/-! ### Emission -/

/-- The variables of the first loop of `buildEntrySet`. -/
structure EntryScan where
  J : Option Nat
  num : Nat
  size : Nat

/-- The first loop of `buildEntrySet`: the instructions before a patched one are its prologue. -/
def prologueEntries (B : Binary) : Nat → Option Nat → EntryScan → EntrySet → EntrySet
  | 0, _, _, Es => Es
  | _, none, _, Es => Es
  | fuel + 1, some I, s, Es =>
    let s : EntryScan :=
      if (B.Is I).patch then ⟨some I, 0, 0⟩
      else if isCFT (B.ORIG I) ⟨true, true, true, false⟩ then { s with J := none }
      else s
    let Es := match s.J with
      | none => Es
      | some J =>
        if s.num ≤ B.options.option_Oprologue ∧ s.size ≤ B.options.option_Oprologue_size then
          EntrySet.insert Es (B.Is I).addr ⟨J, INTPTR_MIN, false, false⟩
        else Es
    let K := B.prev I
    let J := if K.all fun K => B.next K ≠ B.succ K then none else s.J
    prologueEntries B fuel K ⟨J, s.num + 1, s.size + (B.Is I).size⟩ Es

/-- The target of a jump of the original code that a prologue is for, and whether it is a rel8. -/
def peepholeTarget (B : Binary) (I : Nat) : Option (Int × Bool) :=
  let bytes := B.ORIG I
  let size := bytes.length
  let opcode := byteAt bytes 0
  let rel8 := word8 bytes (size - 1)
  let rel32 := word32 bytes (size - 4)
  let target := (B.Is I).addr + size
  if opcode = 0xEB ∨ opcode = 0xE3 ∨ isJcc8 opcode then
    if size ≠ 2 ∨ rel8 ≥ 0 then none else some (target + rel8, true)
  else if opcode = 0x66 then
    if size ≠ 3 ∨ byteAt bytes 1 ≠ 0xE3 ∨ rel8 ≥ 0 then none else some (target + rel8, true)
  else if opcode = 0xE8 ∨ opcode = 0xE9 then
    if size ≠ 5 then none else some (target + rel32, false)
  else if opcode = 0x0F then
    if size ≠ 6 ∨ !isJcc32 (byteAt bytes 1) then none else some (target + rel32, false)
  else none

/-- Mark an entry point as the target of a jump. -/
def EntrySet.mark (Es : EntrySet) (target : Int) (is_rel8 : Bool) : EntrySet :=
  Es.map fun E =>
    if E.1 ≠ target then E
    else if is_rel8 then (E.1, { E.2 with target8 := true })
    else (E.1, { E.2 with target32 := true })

/-- The second loop of `buildEntrySet`. -/
def markTargets (B : Binary) (Es : EntrySet) (I : Nat) : EntrySet :=
  if (B.Is I).patch then Es
  else match peepholeTarget B I with
    | none => Es
    | some (target, is_rel8) => EntrySet.mark Es target is_rel8

/-- Build the initial trampoline entry set. -/
def buildEntrySet (B : Binary) : Binary :=
  let o := B.options
  if !o.option_batch ∨ !o.option_Opeephole ∨ o.option_Oprologue = 0 ∨ o.option_Oprologue_size = 0 ∨
      B.count = 0 then B
  else
    let Es := prologueEntries B B.count (some 0) ⟨none, 0, 0⟩ B.Es
    { B with Es := (List.range B.count).reverse.foldl (markTargets B) Es }

/-- The part of `parseEmit` before the mappings are built. -/
def flushAll (B : Binary) : Except Fault Binary := queueFlush (buildEntrySet B) INTPTR_MIN

/-- The messages that come between `binary` and `emit`. -/
inductive Message where
  | instruction (address length offset : List Int)
  | patch (trampoline : List Template) (offset : List Int) (metadata : List (List MetaEntry))
  | options (argv : List (Options × Option (Nat → Bool)))
  | reserve (absolute : List Bool) (address : List Int) (bytes : List Template) (length : List Int)
  | trampoline (name : List String) (template : List Template)

/-- Parse the given message. -/
def parseMessage (B : Binary) : Message → Except Fault Binary
  | .instruction address length offset => parseInstruction B address length offset
  | .patch trampoline offset metadata => parsePatch B trampoline offset metadata
  | .options argv => parseOptions B argv
  | .reserve absolute address bytes length => parseReserve B absolute address bytes length
  | .trampoline name template => parseTrampoline B name template

/-! ### Binaries -/

/-- What `parseElf` and `parsePE` read from the file: the ranges that they reserve, and for PE files the
size of the image. -/
structure File where
  size : Nat
  bytes : Nat → UInt8
  pic : Bool
  segments : List (Int × Int)
  image_size : Int

def newBinary (file : File) (mode : Mode) (options : Options) : Binary :=
  { size := file.size, mode := mode, pic := file.pic
    config := match mode with
      | .ELF_EXE | .ELF_DSO => options.option_loader_base
      | _ => file.image_size
    original := file.bytes, bytes := file.bytes
    state := fun p => if p < file.size then STATE_UNKNOWN else STATE_OVERFLOW
    cursor := INTPTR_MAX, Q := [], Is := fun _ => Instr.zero, count := 0, Ts := [], Es := [], Traps := []
    allocator := Tree.empty, targets := none, options := options }

def reserveSegment (B : Binary) (segment : Int × Int) : Except Fault Binary := do
  match ← B.reserve checked segment.1 segment.2 with
  | none => .error (.error "failed to reserve address space range %p..%p")
  | some B => .ok B

/-- Tactic B0 is not supported for PE binaries. -/
def disableTraps (B : Binary) : Binary :=
  match B.mode with
  | .PE_EXE | .PE_DLL => { B with options := { B.options with option_tactic_B0 := false } }
  | _ => B

/-- Parse a binary message. -/
def parseBinary (file : File) (mode : Mode) (options : Options) (analysis : Option (Nat → Bool)) :
    Except Fault Binary := do
  let B ← file.segments.foldlM reserveSegment (newBinary file mode options)
  .ok (targetAnalysis (disableTraps B) analysis)

end E9Patch
