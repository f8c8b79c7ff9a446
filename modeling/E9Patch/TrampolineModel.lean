import E9Patch.BinaryModel

/-!
Trampolines (`e9trampoline.cpp`, and the trampoline prologues of `e9optimize.cpp`): their sizes and
bounds, which are computed before the address is known, and the two passes that flatten them, one for
the labels and one for the bytes. A function that recurses through macros takes the recursive call as
a parameter and is closed over a depth. The jumps that are saved for `-Opeephole` are left out.
-/

namespace E9Patch
open Bytes

def MACRO_DEPTH_MAX : Nat := 128
def UINT32_MAX : Nat := 2 ^ 32 - 1

/-- The binary search of `expandMacro` in the metadata, from `lo` to `hi`. -/
def searchMetadata (metadata : List MetaEntry) (name : String) : Nat → Int → Int → Option Trampoline
  | 0, _, _ => none
  | fuel + 1, lo, hi =>
    if lo > hi then none
    else
      let mid := (lo + hi) / 2
      match metadata[mid.toNat]? with
      | none => none
      | some m =>
        if name = m.name then some m.T
        else if name < m.name then searchMetadata metadata name fuel lo (mid - 1)
        else searchMetadata metadata name fuel (mid + 1) hi

/-- Lookup a macro value. -/
def expandMacro (B : Binary) (metadata : List MetaEntry) (name : String) : Option Trampoline :=
  (searchMetadata metadata name metadata.length 0 (metadata.length - 1)).or
    ((B.Ts.find? fun m => m.name = name).map (·.T))

/-- Relocate an instruction to the given address; `INTPTR_MIN` asks for the size only. -/
def relocateInstrTo (B : Binary) (I : Nat) (addr : Int) (buf : Buffer) : Int × Buffer :=
  let relax := addr = INTPTR_MIN
  let offset := if relax then 0 else addr - (B.Is I).addr
  relocateInstr B.options (B.Is I).addr (signed32 offset) (B.ORIG I) (B.Is I).pic buf relax

/-- `relocateInstr(I, INTPTR_MIN)`, which pushes to a buffer of its own. -/
def relocateSize (B : Binary) (I : Nat) : Int := (relocateInstrTo B I INTPTR_MIN ⟨[], UINT32_MAX⟩).1

/-! ### Breaks -/

inductive BuildMode where
  | SIZE
  | BYTES
  deriving DecidableEq, Repr

/-- Break location information. -/
abbrev BreakInfo := List (Int × Int)

def BreakInfo.find (breaks : BreakInfo) (addr : Int) : Option Int :=
  (List.find? (fun b => b.1 = addr) breaks).map (·.2)

def BreakInfo.insert (breaks : BreakInfo) (addr target : Int) : BreakInfo :=
  match BreakInfo.find breaks addr with
  | none => (addr, target) :: breaks
  | some _ => breaks

/-- Build a jump instruction that implements an unoptimized `$break`. -/
def buildBreakJump (B : Binary) (I : Option Nat) (addr : Int) (mode : BuildMode) (breaks : BreakInfo)
    (buf : Buffer) : Except Fault (Int × Buffer) :=
  match mode with
  | .SIZE => .ok (5, buf)
  | .BYTES => do
    let I ← deref I
    let target := (breaks.find (B.Is I).addr).getD ((B.Is I).addr + (B.Is I).size)
    let rel := target - (addr + 5)
    assert (fitsInt32 rel)
    .ok (5, buf.push (0xE9 :: le32 rel))

/-- The transfers that end an epilogue. -/
def epilogueFlags (o : Options) : CFTFlags := ⟨!o.option_Ocall, true, true, false⟩

/-- An instruction that the user had patched, where an epilogue has to jump back. -/
def Instr.isBreak (I : Instr) : Bool := I.is_patched && !I.is_evicted

/-- The loop that determines the epilogue by finding the next unconditional CFT: the number of
instructions, and whether there is one. -/
def findEpilogue (B : Binary) : Nat → Nat → Nat → Nat × Bool
  | 0, _, _ => (0, false)
  | fuel + 1, J, size =>
    if size ≥ B.options.option_Oepilogue_size then (0, false)
    else match B.succ J with
      | none => (0, false)
      | some K =>
        if (B.Is K).isBreak || isCFT (B.ORIG K) (epilogueFlags B.options) then (1, true)
        else
          let r := findEpilogue B fuel K (size + (B.Is K).size)
          (r.1 + 1, r.2)

/-- The loop that builds the `n` instructions of the epilogue from `J`: whether all could be
relocated, and the address and the buffer behind them. -/
def buildEpilogue (B : Binary) (mode : BuildMode) (breaks : BreakInfo) :
    Nat → Option Nat → Int → Buffer → Except Fault (Bool × Int × Buffer)
  | 0, _, addr, buf => .ok (true, addr, buf)
  | n + 1, J, addr, buf => do
    let J ← deref J
    if (B.Is J).isBreak then
      assert (n = 0)
      let r ← buildBreakJump B (B.prev J) addr mode breaks buf
      .ok (true, addr + r.1, r.2)
    else match mode with
      | .SIZE => buildEpilogue B mode breaks n (B.next J) (addr + relocateSize B J % 2 ^ 32) buf
      | .BYTES =>
        let r := relocateInstrTo B J addr buf
        if r.1 ≥ 0 then buildEpilogue B mode breaks n (B.next J) (addr + r.1 % 2 ^ 32) r.2
        else .ok (false, addr + r.1 % 2 ^ 32, r.2)

/-- Build a `$break`/`$BREAK` operation from a trampoline back to the main code. -/
def buildBreak (B : Binary) (I : Nat) (addr : Int) (fallthrough optimize : Bool) (mode : BuildMode)
    (breaks : BreakInfo) (buf : Buffer) : Except Fault (Int × Buffer) :=
  if fallthrough then .ok (0, buf)
  else if !optimize || (B.Is I).no_optimize then buildBreakJump B (some I) addr mode breaks buf
  else
    let e := findEpilogue B B.options.option_Oepilogue I 0
    if !e.2 then buildBreakJump B (some I) addr mode breaks buf
    else do
      let r ← buildEpilogue B mode breaks e.1 (B.next I) addr buf
      if !r.1 then buildBreakJump B (some I) addr mode breaks (r.2.2.reset buf.size)
      else .ok (signed32 (r.2.1 - addr), r.2.2)

/-- The size of a break. -/
def breakSize (B : Binary) (I : Nat) (fallthrough optimize : Bool) : Except Fault Int :=
  (buildBreak B I 0 fallthrough optimize .SIZE [] ⟨[], UINT32_MAX⟩).map (·.1)

/-! ### Prologues -/

/-- The loop of `getTrampolinePrologueStart` over the entry points below that of the instruction. -/
def prologueStartLoop (B : Binary) (I : Nat) :
    List EntryPoint → Option Nat → Option Nat → Except Fault (Option Nat)
  | [], _, K => .ok K
  | F :: Fs, J, K => do
    let J ← deref J
    let J := B.prev J
    if F.I ≠ I then .ok K
    else prologueStartLoop B I Fs J (if F.target32 || F.target8 then J else K)

/-- Calculate the start of the trampoline prologue. -/
def getTrampolinePrologueStart (B : Binary) (I : Nat) : Except Fault (Option Nat) :=
  if !B.options.option_Opeephole then .ok none
  else
    let addr := (B.Is I).addr
    match EntrySet.find B.Es addr with
    | none => .ok none
    | some E =>
      if E.I ≠ I then .ok none
      else prologueStartLoop B I ((B.Es.filter fun F => F.1 < addr).reverse.map (·.2)) (some I) none

/-- The loop that builds the prologue of `I` from `J`: its size and the buffer behind it, or a failure.
The entry points are recorded by the caller. -/
def buildPrologueLoop (B : Binary) (I : Nat) (mode : BuildMode) :
    Nat → Option Nat → Int → Int → Buffer → List (Nat × Int) →
      Except Fault (Option (Int × Buffer × List (Nat × Int)))
  | 0, _, _, _, _, _ => .error .null
  | fuel + 1, J, addr, r, buf, entries => do
    let J ← deref J
    if J = I then .ok (some (r, buf, entries))
    else match mode with
      | .SIZE =>
        let len := relocateSize B J
        if len < 0 then .ok none
        else buildPrologueLoop B I mode fuel (B.next J) (addr + len) (r + len) buf entries
      | .BYTES =>
        let s := relocateInstrTo B J addr buf
        if s.1 < 0 then .ok none
        else
          buildPrologueLoop B I mode fuel (B.next J) (addr + s.1) (r + s.1) s.2 (entries ++ [(J, addr)])

/-- Build a trampoline prologue, which may include instructions before the patched instruction. The
result is its size, the buffer and the entry points that are to be set. -/
def buildPrologue (B : Binary) (I : Nat) (addr : Int) (mode : BuildMode) (buf : Buffer) :
    Except Fault (Int × Buffer × List (Nat × Int)) :=
  if !B.options.option_Opeephole then .ok (0, buf, [])
  else do
    let J ← getTrampolinePrologueStart B I
    if J = none ∨ J = some I then .ok (0, buf, [])
    else
      match ← buildPrologueLoop B I mode (B.count + 1) J addr 0 buf [] with
      | none => .ok (0, buf, [])
      | some r => .ok r

/-- Calculate trampoline prologue size. -/
def getTrampolinePrologueSize (B : Binary) (I : Option Nat) : Except Fault Int :=
  match I with
  | none => .ok 0
  | some I => (buildPrologue B I 0 .SIZE ⟨[], UINT32_MAX⟩).map (·.1)

/-! ### Sizes -/

/-- The loop of `ENTRY_BATCH` over the instructions from `I` to the one at `addr`, with what it does
for each (given whether it is the last). The result is the accumulator, the last instruction and the
one behind it. -/
def batchLoop {α : Type} (B : Binary) (addr : Int) (body : α → Nat → Bool → Except Fault (Option α)) :
    Nat → α → Option Nat → Option Nat → Except Fault (Option (α × Option Nat × Option Nat))
  | 0, a, J, I => .ok (some (a, J, I))
  | fuel + 1, a, J, I =>
    match I with
    | none => .ok (some (a, J, none))
    | some I =>
      if (B.Is I).addr > addr then .ok (some (a, J, some I))
      else do
        match ← body a I ((B.Is I).addr = addr) with
        | none => .ok none
        | some a => batchLoop B addr body fuel a (some I) (B.next I)

/-- What an entry adds to the size and the instruction for the entries behind it; `none` where the
source returns -1. `isLast` tells whether it is the last entry. -/
def entrySize (B : Binary) (rec : Trampoline → Option Nat → Bool → Except Fault Int) (last : Bool)
    (entry : Entry) (isLast : Bool) (I : Option Nat) : Except Fault (Option (Int × Option Nat)) :=
  match entry with
  | .DEBUG => .ok (some (if I.any fun I => (B.Is I).debug then 1 else 0, I))
  | .BYTES bytes => .ok (some (bytes.length, I))
  | .ZEROES length => .ok (some (length, I))
  | .INT8 _ => .ok (some (1, I))
  | .INT16 _ => .ok (some (2, I))
  | .INT32 _ => .ok (some (4, I))
  | .INT64 _ => .ok (some (8, I))
  | .LABEL _ => .ok (some (0, I))
  | .MACRO name => do
    let J ← deref I
    match expandMacro B (B.Is J).metadata name with
    | none => .error (.error "failed to get trampoline size; metadata for macro \"%s\" is missing")
    | some U =>
      -- the source tests `size`, which is unsigned, and not the result
      let r ← rec U I last
      .ok (some (r, I))
  | .REL8 _ => .ok (some (1, I))
  | .REL32 _ => .ok (some (4, I))
  | .INSTR => do
    let J ← deref I
    let r := relocateSize B J
    .ok (if r < 0 then none else some (r, I))
  | .INSTR_BYTES => do
    let J ← deref I
    .ok (some ((B.Is J).size, I))
  | .BREAK optimize => do
    let J ← deref I
    let r ← breakSize B J (!last && isLast) (last && optimize)
    .ok (some (r, I))
  | .TAKE => .ok (some (5, I))
  | .BATCH addr => do
    let body (size : Int) (I : Nat) (last : Bool) : Except Fault (Option Int) := do
      let r ← match (B.Is I).T with
        | some T => rec T (some I) last
        | none => .ok (relocateSize B I)
      .ok (if r < 0 then none else some (size + r))
    match ← batchLoop B addr body (B.count + 1) 0 none I with
    | none => .ok none
    | some (size, J, I) =>
      let J ← deref J
      if (B.Is J).T = none then do
        let r ← breakSize B J false true
        .ok (some (size + r, I))
      else .ok (some (size, I))

def entriesSize (B : Binary) (rec : Trampoline → Option Nat → Bool → Except Fault Int) (last : Bool) :
    List Entry → Option Nat → Int → Except Fault Int
  | [], _, size => .ok (signed32 size)
  | entry :: entries, I, size => do
    match ← entrySize B rec last entry entries.isEmpty I with
    | none => .ok (-1)
    | some (r, I) => entriesSize B rec last entries I (size + r)

def trampolineSize (B : Binary) : Nat → Trampoline → Option Nat → Bool → Except Fault Int
  | 0, _, _, _ =>
    .error (.error "failed to get trampoline size; maximum macro expansion depth (%u) exceeded")
  | fuel + 1, T, I, last => entriesSize B (trampolineSize B fuel) last T.entries I 0

/-- Calculate trampoline size. Returns -1 if the trampoline cannot be constructed. -/
def getTrampolineSize (B : Binary) (T : Trampoline) (I : Option Nat) : Except Fault Int :=
  trampolineSize B (MACRO_DEPTH_MAX + 1) T I true

/-! ### Bounds -/

structure Bounds where
  lb : Int
  ub : Int
  deriving DecidableEq, Repr

/-- Get the address of a "builtin" label, or `INTPTR_MIN`. -/
def getBuiltinLabelAddress (B : Binary) (I : Nat) (label : String) : Except Fault Int :=
  if label = ".Lbreak" then .ok ((B.Is I).addr + (B.Is I).size)
  else if label = ".Lconfig" then .ok B.config
  else if label = ".Linstr" then .ok (B.Is I).addr
  else if label = ".Ltake" then
    match getCFTTarget (B.Is I).addr (B.ORIG I) ⟨false, false, false, true⟩ with
    | none => .error (.error "failed to build trampoline; instruction at address 0x%lx is not a conditional branch (as required by \".Ltake\")")
    | some target => .ok target
  else .ok INTPTR_MIN

/-- The bounds of a trampoline in which a `rel8` or `rel32` entry ends at `size`. -/
def Bounds.restrict (b : Bounds) (addr size relMin relMax : Int) : Bounds :=
  if addr = INTPTR_MIN then b
  else ⟨max b.lb (signed64 (addr - size + 1 + relMin)), min b.ub (signed64 (addr - size - 1 + relMax))⟩

/-- The address that a `rel8` or `rel32` entry refers to, as far as it is known. -/
def relAddress (B : Binary) (I : Option Nat) : Value → Except Fault Int
  | .label label => do
    let I ← deref I
    getBuiltinLabelAddress B I label
  | .uint64 value => .ok (signed64 value)

/-- What an entry does to the size, the bounds and the instruction. -/
def entryBounds (B : Binary) (rec : Trampoline → Option Nat → Bool → Int × Bounds → Except Fault (Int × Bounds))
    (last : Bool) (entry : Entry) (isLast : Bool) (I : Option Nat) (a : Int × Bounds) :
    Except Fault (Option Nat × Int × Bounds) :=
  match entry with
  | .DEBUG => .ok (I, a.1 + (if I.any fun I => (B.Is I).debug then 1 else 0), a.2)
  | .BYTES bytes => .ok (I, a.1 + bytes.length, a.2)
  | .ZEROES length => .ok (I, a.1 + length, a.2)
  | .INT8 _ => .ok (I, a.1 + 1, a.2)
  | .INT16 _ => .ok (I, a.1 + 2, a.2)
  | .INT32 _ => .ok (I, a.1 + 4, a.2)
  | .INT64 _ => .ok (I, a.1 + 8, a.2)
  | .LABEL _ => .ok (I, a)
  | .MACRO name => do
    let J ← deref I
    match expandMacro B (B.Is J).metadata name with
    | none => .error (.error "failed to get trampoline bounds; metadata for macro \"%s\" is missing")
    | some U =>
      let a ← rec U I last a
      .ok (I, a)
  | .REL8 value => do
    let addr ← relAddress B I value
    .ok (I, a.1 + 1, a.2.restrict addr (a.1 + 1) (-2 ^ 7) (2 ^ 7 - 1))
  | .REL32 value => do
    let addr ← relAddress B I value
    .ok (I, a.1 + 4, a.2.restrict addr (a.1 + 4) (-2 ^ 31) (2 ^ 31 - 1))
  | .INSTR => do
    let J ← deref I
    .ok (I, a.1 + max 0 (relocateSize B J), a.2)
  | .INSTR_BYTES => do
    let J ← deref I
    .ok (I, a.1 + (B.Is J).size, a.2)
  | .BREAK optimize => do
    let J ← deref I
    let r ← breakSize B J (!last && isLast) (last && optimize)
    .ok (I, a.1 + r, a.2)
  | .TAKE => .ok (I, a.1 + 5, a.2)
  | .BATCH addr => do
    let body (a : Int × Bounds) (I : Nat) (last : Bool) : Except Fault (Option (Int × Bounds)) :=
      match (B.Is I).T with
      | some T => do
        let r ← rec T (some I) last a
        .ok (some (a.1 + r.1, r.2))
      | none => .ok (some (a.1 + relocateSize B I, a.2))
    match ← batchLoop B addr body (B.count + 1) a none I with
    | none => .ok (I, a)
    | some (a, J, I) =>
      let J ← deref J
      if (B.Is J).T = none then do
        let r ← breakSize B J false true
        .ok (I, a.1 + r, a.2)
      else .ok (I, a)

def entriesBounds (B : Binary) (rec : Trampoline → Option Nat → Bool → Int × Bounds → Except Fault (Int × Bounds))
    (last : Bool) : List Entry → Option Nat → Int × Bounds → Except Fault (Int × Bounds)
  | [], _, a => .ok a
  | entry :: entries, I, a => do
    let (I, a) ← entryBounds B rec last entry entries.isEmpty I a
    entriesBounds B rec last entries I a

def trampolineBounds (B : Binary) :
    Nat → Trampoline → Option Nat → Bool → Int × Bounds → Except Fault (Int × Bounds)
  | 0, _, _, _, _ =>
    .error (.error "failed to get trampoline bounds; maximum macro expansion depth (%u) exceeded")
  | fuel + 1, T, I, last, a => entriesBounds B (trampolineBounds B fuel) last T.entries I a

/-- Calculate trampoline bounds. -/
def getTrampolineBounds (B : Binary) (T : Trampoline) (I : Nat) : Except Fault Bounds :=
  let b : Bounds := ⟨INTPTR_MIN, INTPTR_MAX⟩
  if T = evicteeTrampoline then .ok b
  else (trampolineBounds B (MACRO_DEPTH_MAX + 1) T (some I) true (0, b)).map (·.2)

end E9Patch
