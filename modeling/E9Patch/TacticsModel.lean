import E9Patch.TrampolineModel

/-!
The patching tactics (`e9tactics.cpp`). A tactic takes the binary to a new one and a list of patches,
from the last one applied to the first; the empty list is `nullptr`. The loops over neighbours follow
`next()` and `prev()`, with the number of instructions as fuel.
-/

namespace E9Patch
open Bytes

def JMP_SIZE : Nat := 5
def PATCH_MAX : Nat := 32
def SHORT_JMP_MAX : Int := 2 ^ 7 - 1
def SHORT_JMP_MIN : Int := -2 ^ 7
def INT32_MIN : Int := -2 ^ 31
def INT32_MAX : Int := 2 ^ 31 - 1
def T0_LIMIT : Nat := 32

inductive Tactic where
  | B0
  | B1
  | B2
  | T0
  | T1
  | T2
  | T3
  deriving DecidableEq, Repr

/-- What a patch saves of its instruction; the maps are read below `PATCH_MAX` only. -/
structure Original where
  is_patched : Bool
  state : Nat → ByteState
  bytes : Nat → UInt8

/-- A patch. The ones it depends on follow it in the list. -/
structure Patch where
  A : Option Nat
  I : Nat
  tactic : Tactic
  original : Original

namespace Binary

/-- The four bytes of a word in memory. -/
def word (bytes : Nat → UInt8) (p : Nat) : List UInt8 :=
  [bytes p, bytes (p + 1), bytes (p + 2), bytes (p + 3)]

def alloc (B : Binary) (A : Nat) : Alloc Trampoline Nat := B.allocator.heap.alloc A

/-- The address `A->lb + A->entry`. -/
def entry (B : Binary) (A : Nat) : Int := (B.alloc A).lb + (B.alloc A).entry

def setNoOptimize (B : Binary) (J : Nat) (v : Bool) : Binary :=
  B.setInstr J { B.Is J with no_optimize := v }

/-- The constructor of `Patch`, which also sets the flags of the instruction. -/
def newPatch (B : Binary) (I : Nat) (tactic : Tactic) (A : Option Nat) : Binary × Patch :=
  let evicts := A.any fun A => (B.alloc A).T = some evicteeTrampoline
  (B.setInstr I { B.Is I with is_patched := true, is_evicted := evicts || (B.Is I).is_evicted },
    ⟨A, I, tactic, ⟨(B.Is I).is_patched, B.STATE I, B.PATCH I⟩⟩)

/-- The loop body of `undo`. -/
def undoPatch (B : Binary) (P : Patch) : Binary :=
  let B := B.setInstr P.I { B.Is P.I with is_patched := P.original.is_patched, is_evicted := false }
  let offset := (B.Is P.I).offset
  { B with
    state := fun q =>
      if offset ≤ q ∧ q < offset + PATCH_MAX then P.original.state (q - offset) else B.state q
    bytes := fun q =>
      if offset ≤ q ∧ q < offset + PATCH_MAX then P.original.bytes (q - offset) else B.bytes q
    allocator := B.allocator.deallocate P.A }

/-- Undo the application of a patch. -/
def undo (B : Binary) (Ps : List Patch) : Binary := Ps.foldl undoPatch B

def commitPatch (B : Binary) (P : Patch) : Binary :=
  match P.A with
  | none => B
  | some A => setTrampolineEntry B P.I (B.entry A)

/-- Commit a patch. -/
def commit (B : Binary) (Ps : List Patch) : Binary :=
  let B := match Ps with
    | ⟨some A, _, .B0, _⟩ :: _ => { B with Traps := B.Traps ++ [A] }
    | _ => B
  Ps.foldl commitPatch B

/-! ### Allocation -/

/-- `for (; size < limit && p(size); size++)` with `n = limit - size`. -/
def scan (p : Nat → Bool) : Nat → Nat → Nat
  | 0, size => size
  | n + 1, size => if p size then scan p n (size + 1) else size

/-- The bytes from the prefix on that a jump can be written over: `makeBounds`, step (1). -/
def jumpRun (B : Binary) (I pre : Nat) : Nat :=
  let size := pre + 1
  let size := scan (fun i => B.STATE I i = STATE_INSTRUCTION ∨ B.STATE I i = STATE_FREE)
    ((B.Is I).size - size) size
  scan (fun i => B.STATE I i = STATE_FREE) (5 - size) size

/-- The least and the greatest rel32 whose last bytes are those that are there: `makeBounds`,
step (2). The mask keeps all but the low `diff` bytes. -/
def rel32Range (B : Binary) (I pre diff : Nat) (trap : Bool) : Int × Int :=
  if diff ≥ 4 ∨ trap then (INT32_MIN, INT32_MAX)
  else
    let urel32 := uword32 (word B.bytes ((B.Is I).offset + pre + 1)) 0
    let urel32_lo := urel32 - urel32 % 2 ^ (8 * diff)
    (signed32 urel32_lo, signed32 (urel32_lo + (2 ^ (8 * diff) - 1)))

/-- The target of the pc-relative operand of an instruction, as `makeBounds` reads it. -/
def pcrelTarget (B : Binary) (I : Nat) : Int :=
  let pcrel := if (B.Is I).pcrel32_idx ≠ 0 then
      word32 (word B.original ((B.Is I).offset + (B.Is I).pcrel32_idx)) 0
    else signed8 (B.original ((B.Is I).offset + (B.Is I).pcrel32_idx)).toNat
  (B.Is I).addr + (B.Is I).size + pcrel

/-- The intersection of two ranges. -/
def meet (b : Bounds) (lo hi : Int) : Bounds := ⟨max b.lb lo, min b.ub hi⟩

/-- Steps (2) to (4) of `makeBounds`: what the jump reaches, and what the trampoline can return from. -/
def jumpBounds (B : Binary) (I pre diff : Nat) (trap : Bool) : Bounds :=
  let r := B.rel32Range I pre diff trap
  let jmp_from := (B.Is I).addr + pre + JMP_SIZE
  let jmp_lo := jmp_from + r.1
  let jmp_hi := jmp_from + r.2
  let b : Bounds := if jmp_lo > jmp_hi then ⟨jmp_hi, jmp_lo⟩ else ⟨jmp_lo, jmp_hi⟩
  meet b (jmp_from - INT32_MAX) (jmp_from - INT32_MIN - TRAMPOLINE_MAX)

/-- Step (6): the trampoline must be within reach of the target of a position-dependent instruction. -/
def pcrelBounds (B : Binary) (I : Nat) (b : Bounds) : Bounds :=
  if (B.Is I).pcrel32_idx ≠ 0 ∨ (B.Is I).pcrel8_idx ≠ 0 then
    meet b (B.pcrelTarget I - INT32_MAX) (B.pcrelTarget I - INT32_MIN - TRAMPOLINE_MAX)
  else b

/-- Step (7): the user-specified bounds. -/
def userBounds (B : Binary) (b : Bounds) : Bounds :=
  let b := meet b B.options.option_mem_lb B.options.option_mem_ub
  match B.mode with
  | .ELF_EXE | .ELF_DSO => { b with ub := min b.ub (B.options.option_loader_base - PAGE_SIZE) }
  | _ => b

/-- Calculate trampoline bounds. -/
def makeBounds (B : Binary) (T : Trampoline) (I J pre : Nat) (trap : Bool) : Except Fault Bounds := do
  assert (pre < (B.Is I).size ∨ trap)
  let size := B.jumpRun I pre
  assert (pre < size)
  let b := B.jumpBounds I pre (size - pre - 1) trap
  let t ← getTrampolineBounds B T J
  .ok (B.userBounds (B.pcrelBounds I (meet b t.lb t.ub)))

/-- Allocates a chunk of virtual address space within the range `[lb..ub]` for a trampoline. -/
def allocate (B : Binary) (lb ub : Int) (T : Trampoline) (I : Option Nat) (same_page : Bool) :
    Except Fault (Option (Binary × Nat)) :=
  if ¬verify lb (ub + TRAMPOLINE_MAX) then .ok none
  else do
    let presize ← getTrampolinePrologueSize B I
    let tmpsize ← getTrampolineSize B T I
    match ← defined (B.allocator.allocate checked B.options.option_Oorder lb ub presize.toNat tmpsize (some T) I
        same_page) with
    | none => .ok none
    | some (t, A) => .ok (some ({ B with allocator := t }, A))

/-- Reserves a chunk of the virtual address space spanning the range `[lb..ub]`. -/
def reserve (arith : Int → Except Overflow Int) (B : Binary) (lb ub : Int) : Except Fault (Option Binary) := do
  match ← defined (B.allocator.reserve arith lb ub) with
  | none => .ok none
  | some (t, _) => .ok (some { B with allocator := t })

/-- Allocate virtual address space for a punned jump in `I` on behalf of `J`. -/
def allocatePunnedJump (B : Binary) (I pre J : Nat) (T : Trampoline) :
    Except Fault (Option (Binary × Nat)) :=
  if (List.range 6).any fun i => B.STATE I (pre + i) = STATE_QUEUED then .ok none
  else do
    let b ← B.makeBounds T I J pre false
    B.allocate b.lb b.ub T (some J) !B.options.option_mem_multi_page

/-- Allocate virtual address space for a non-punned jump. -/
def allocateJump (B : Binary) (I : Nat) (T : Trampoline) : Except Fault (Option (Binary × Nat)) :=
  B.allocatePunnedJump I 0 I T

/-- Allocate virtual address space for a trap. -/
def allocateTrap (B : Binary) (I : Nat) (T : Trampoline) : Except Fault (Option (Binary × Nat)) := do
  let b ← B.makeBounds T I I 0 true
  B.allocate b.lb b.ub T (some I) !B.options.option_mem_multi_page

/-! ### Writing -/

/-- An instruction byte that is not in use. -/
def unused (s : ByteState) : Bool := s = STATE_INSTRUCTION ∨ s = STATE_FREE

def prefixes : List UInt8 := [0x48, 0x26, 0x36, 0x3E]

/-- Write a byte of a patch. -/
def write (B : Binary) (p : Nat) (b : UInt8) : Binary := (B.setByte p b).setState p STATE_PATCHED

def patchPrefixByte (I : Nat) (B : Binary) (i : Nat) : Except Fault Binary := do
  assert (unused (B.STATE I i))
  .ok (B.write ((B.Is I).offset + i) (byteAt prefixes i))

/-- Patch in a (redundant) jmp instruction prefix. -/
def patchJumpPrefix (B : Binary) (I pre : Nat) : Except Fault Binary := do
  assert (pre < (B.Is I).size ∧ pre ≤ prefixes.length)
  (List.range pre).foldlM (patchPrefixByte I) B

/-- Byte `i` of the rel32, in either loop of `patchJump`; `offset` is that of the rel32. -/
def patchRelByte (I offset : Nat) (rel32 : Int) (B : Binary) (i : Nat) : Except Fault Binary :=
  let p := (B.Is I).offset + offset + i
  let b := byteAt (le32 rel32) i
  if offset + i < (B.Is I).size then do
    assert (unused (B.state p) ∨ (B.state p = STATE_PATCHED ∧ B.bytes p = b))
    .ok (B.write p b)
  else do
    assert (B.state p ≠ STATE_QUEUED)
    .ok (if B.state p = STATE_FREE then B.write p b else B.setState p (B.state p).lock)

/-- Patch in a jmpq instruction. -/
def patchJump (B : Binary) (P : Patch) (offset : Nat) : Except Fault Binary := do
  let I := P.I
  assert (offset ≤ PATCH_MAX - JMP_SIZE)
  assert (offset < (B.Is I).size)
  let A ← deref P.A
  let diff := B.entry A - ((B.Is I).addr + offset + JMP_SIZE)
  assert (INT32_MIN ≤ diff ∧ diff ≤ INT32_MAX)
  assert (unused (B.STATE I offset))
  let B := B.write ((B.Is I).offset + offset) 0xE9
  (List.range 4).foldlM (patchRelByte I (offset + 1) diff) B

/-- Patch in a short jmp instruction. -/
def patchShortJump (B : Binary) (I : Nat) (addr : Int) : Except Fault Binary := do
  let diff := addr - ((B.Is I).addr + 2)
  assert (-2 ^ 7 ≤ diff ∧ diff ≤ 2 ^ 7 - 1)
  assert (unused (B.STATE I 0))
  let B := B.write (B.Is I).offset 0xEB
  assert (unused (B.STATE I 1))
  .ok (B.write ((B.Is I).offset + 1) (byte diff))

/-- Patch in a trap (illegal) instruction. -/
def patchTrap (B : Binary) (I : Nat) : Except Fault Binary := do
  assert (unused (B.STATE I 0))
  .ok (B.write (B.Is I).offset 0x27)

def patchUnusedByte (I : Nat) (B : Binary) (i : Nat) : Except Fault Binary :=
  let p := (B.Is I).offset + i
  .ok (if B.state p = STATE_INSTRUCTION ∨ B.state p = STATE_QUEUED then
    (B.setByte p 0xcc).setState p STATE_FREE
  else B)

/-- Patch in unused memory. -/
def patchUnused (B : Binary) (I offset : Nat) : Except Fault Binary := do
  assert (offset ≤ (B.Is I).size)
  (List.range' offset ((B.Is I).size - offset)).foldlM (patchUnusedByte I) B

/-! ### Tactics -/

/-- Return true if the given instruction can be instrumented. -/
def canPatch (B : Binary) (I : Nat) : Bool := unused (B.STATE I 0)

/-- `P = (P == nullptr? tactic(..): P)`. -/
def orTry (r : Binary × List Patch) (tactic : Binary → Except Fault (Binary × List Patch)) :
    Except Fault (Binary × List Patch) :=
  match r.2 with
  | [] => tactic r.1
  | _ :: _ => .ok r

/-- `Q->next = P`. -/
def setNext (Q P : List Patch) : List Patch := Q.take 1 ++ P

/-- A new patch for `I`, with a jump behind a prefix of `pre` bytes. -/
def applyJump (B : Binary) (I : Nat) (tactic : Tactic) (A pre : Nat) :
    Except Fault (Binary × Patch) := do
  let N := B.newPatch I tactic (some A)
  let B ← N.1.patchJump N.2 pre
  .ok (B, N.2)

/-- Tactic B0: replace the instruction with an illegal instruction. -/
def tactic_B0 (I : Nat) (T : Trampoline) (B : Binary) : Except Fault (Binary × List Patch) :=
  if !B.options.option_tactic_B0 then .ok (B, [])
  else do
    match ← B.allocateTrap I T with
    | none => .ok (B, [])
    | some (B, A) =>
      let N := B.newPatch I .B0 (some A)
      let B ← N.1.patchTrap I
      let B ← B.patchUnused I 1
      .ok (B, [N.2])

/-- Tactic B1: replace the instruction with a jump. -/
def tactic_B1 (I : Nat) (T : Trampoline) (tactic : Tactic) (B : Binary) :
    Except Fault (Binary × List Patch) :=
  if (B.Is I).size < JMP_SIZE ∨ !B.options.option_tactic_B1 ∨ !B.canPatch I then .ok (B, [])
  else do
    match ← B.allocateJump I T with
    | none => .ok (B, [])
    | some (B, A) =>
      let (B, P) ← B.applyJump I tactic A 0
      let B ← B.patchUnused I 5
      .ok (B, [P])

/-- Tactic B2: replace the instruction with a punned jump. -/
def tactic_B2 (I : Nat) (T : Trampoline) (tactic : Tactic) (B : Binary) :
    Except Fault (Binary × List Patch) :=
  if (B.Is I).size ≥ JMP_SIZE ∨ !B.options.option_tactic_B2 ∨ !B.canPatch I then .ok (B, [])
  else do
    match ← B.allocatePunnedJump I 0 I T with
    | none => .ok (B, [])
    | some (B, A) =>
      let (B, P) ← B.applyJump I tactic A 0
      .ok (B, [P])

def canApplyT1 (B : Binary) (I pre : Nat) : Bool :=
  if B.STATE I pre = STATE_INSTRUCTION then pre < (B.Is I).size else B.STATE I pre = STATE_FREE

/-- The loop of T1 over the prefix lengths. -/
def tactic_T1Loop (I : Nat) (T : Trampoline) (tactic : Tactic) (B : Binary) :
    List Nat → Except Fault (Binary × List Patch)
  | [] => .ok (B, [])
  | pre :: pres =>
    if !B.canApplyT1 I pre ∨ pre ≥ (B.Is I).size then .ok (B, [])
    else do
      match ← B.allocatePunnedJump I pre I T with
      | none => tactic_T1Loop I T tactic B pres
      | some (B, A) =>
        let N := B.newPatch I tactic (some A)
        let B ← N.1.patchJumpPrefix I pre
        let B ← B.patchJump N.2 pre
        .ok (B, [N.2])

/-- Tactic T1: replace the instruction with a prefixed punned jump. -/
def tactic_T1 (I : Nat) (T : Trampoline) (tactic : Tactic) (B : Binary) :
    Except Fault (Binary × List Patch) :=
  if (B.Is I).size ≥ JMP_SIZE ∨ !B.options.option_tactic_T1 ∨ !B.canPatch I then .ok (B, [])
  else tactic_T1Loop I T tactic B [1, 2, 3]

/-- Tactic T2: evict the successor instruction. -/
def tactic_T2 (I : Nat) (T : Trampoline) (B : Binary) : Except Fault (Binary × List Patch) :=
  if (B.Is I).size ≥ JMP_SIZE ∨ !B.options.option_tactic_T2 ∨ !B.canPatch I then .ok (B, [])
  else match B.succ I with
    | none => .ok (B, [])
    | some J =>
      if !B.canPatch J then .ok (B, [])
      else do
        let Q ← tactic_B2 J evicteeTrampoline .T2 B
        let Q ← orTry Q (tactic_T1 J evicteeTrampoline .T2)
        if Q.2.isEmpty then .ok Q
        else do
          let P ← tactic_B2 I T .T2 Q.1
          let P ← orTry P (tactic_T1 I T .T2)
          if P.2.isEmpty then .ok (P.1.undo Q.2, [])
          else .ok (P.1, setNext P.2 Q.2)

/-- Step (2b) of T3: attempt to evict `J`. -/
def evict (J : Nat) (tactic : Tactic) (U : Trampoline) (B : Binary) :
    Except Fault (Binary × List Patch) := do
  let Q ← tactic_B1 J U tactic B
  let Q ← orTry Q (tactic_B2 J U tactic)
  orTry Q (tactic_T1 J U tactic)

/-- Step (2) of T3: insert a jump for `I` at byte `i` of `J`, and evict `J` if it was not patched yet.
The result is the allocation and the patches, if it succeeds. -/
def placeJump (I J i : Nat) (T : Trampoline) (backward : Bool) (B : Binary) :
    Except Fault (Binary × Option Nat × List Patch) := do
  let save := (B.Is J).no_optimize
  let state := B.STATE J i
  let B := if backward then B.setNoOptimize J true else B
  match ← B.allocatePunnedJump J i I T with
  | none => .ok (B.setNoOptimize J save, none, [])
  | some (B, A) =>
    let (B, P) ← B.applyJump J .T3 A i
    if state = STATE_FREE then .ok (B, some A, [{ P with A := none }])
    else do
      let Q ← evict J .T3 evicteeTrampoline B
      if Q.2.isEmpty then .ok ((Q.1.setNoOptimize J save).undo [P], none, [])
      else .ok (Q.1, some A, setNext Q.2 [{ P with A := none }])

/-- `for (; J != nullptr && J->addr + J->size <= target; J = J->next());` -/
def skipForward (B : Binary) (target : Int) : Nat → Option Nat → Option Nat
  | 0, J => J
  | _, none => none
  | fuel + 1, some J =>
    if (B.Is J).addr + (B.Is J).size ≤ target then skipForward B target fuel (B.next J) else some J

/-- `for (J = I->prev(); J != nullptr && J->addr > target; J = J->prev());` -/
def skipBackward (B : Binary) (target : Int) : Nat → Option Nat → Option Nat
  | 0, J => J
  | _, none => none
  | fuel + 1, some J =>
    if (B.Is J).addr > target then skipBackward B target fuel (B.prev J) else some J

/-- The last part of T3b: the short jump itself, whose rel8 is the byte that follows it. -/
def patchSingleByte (B : Binary) (I A : Nat) (Ps : List Patch) :
    Except Fault (Binary × List Patch) := do
  let N := B.newPatch I .T3 (some A)
  assert (N.1.STATE I 0 = STATE_INSTRUCTION)
  let B := N.1.write (N.1.Is I).offset 0xEB
  let K ← deref (B.next I)
  .ok (B.setState (B.Is K).offset (B.STATE K 0).lock, N.2 :: Ps)

/-- Tactic T3 (single-byte instruction): evict a neighbour instruction. -/
def tactic_T3b (I : Nat) (T : Trampoline) (B : Binary) : Except Fault (Binary × List Patch) :=
  if (B.Is I).size ≠ 1 ∨ !B.options.option_tactic_T3 ∨ !B.canPatch I then .ok (B, [])
  else match B.succ I with
    | none => .ok (B, [])
    | some J =>
      if !B.canPatch J then .ok (B, [])
      else
        let rel8 := signed8 (B.PATCH J 0).toNat
        if !B.options.option_tactic_backward_T3 ∧ rel8 < 1 then .ok (B, [])
        else
          let addr := (B.Is I).addr
          let target := addr + 2 + rel8
          let J := if target ≥ addr then B.skipForward target B.count (some J)
            else B.skipBackward target B.count (B.prev I)
          match J with
          | none => .ok (B, [])
          | some J =>
            if target ≤ (B.Is J).addr ∨
                ((B.Is J).addr < addr ∧ (B.Is J).addr + (B.Is J).size > addr) then .ok (B, [])
            else
              let i := (target - (B.Is J).addr).toNat
              if unused (B.STATE J i) then do
                let r ← placeJump I J i T (target < addr) B
                match r.2.1 with
                | none => .ok (r.1, [])
                | some A => r.1.patchSingleByte I A r.2.2
              else .ok (B, [])

/-- The loop of T3 over the bytes of the neighbour `J`: the allocation, the address of the jump and
the patches, if there is a jump. -/
def tactic_T3Bytes (I J : Nat) (T : Trampoline) (B : Binary) :
    List Nat → Except Fault (Binary × Option (Nat × Int) × List Patch)
  | [] => .ok (B, none, [])
  | i :: is =>
    let from_ := (B.Is I).addr + 2
    let at_ := (B.Is J).addr + i
    if i = 0 ∧ B.STATE J 0 ≠ STATE_FREE then tactic_T3Bytes I J T B is
    else if (B.Is J).addr > (B.Is I).addr ∧ at_ - from_ > SHORT_JMP_MAX then tactic_T3Bytes I J T B is
    else if (B.Is J).addr < (B.Is I).addr ∧ from_ - at_ > -SHORT_JMP_MIN then .ok (B, none, [])
    else if (B.Is J).addr < (B.Is I).addr ∧ (B.Is I).addr - at_ < 5 then tactic_T3Bytes I J T B is
    else if unused (B.STATE J i) then do
      let r ← placeJump I J i T ((B.Is J).addr < (B.Is I).addr) B
      match r.2.1 with
      | none => tactic_T3Bytes I J T r.1 is
      | some A => .ok (r.1, some (A, at_), r.2.2)
    else tactic_T3Bytes I J T B is

/-- Step (1) of T3: the instruction furthest ahead that a short jump reaches. -/
def furthest (B : Binary) (I : Nat) : Nat → Nat
  | 0 => 0
  | k + 1 =>
    match B.next (k + 1) with
    | none => k + 1
    | some _ => if (B.Is k).addr - ((B.Is I).addr + 2) > SHORT_JMP_MAX then k + 1 else furthest B I k

/-- Whether T3 looks at the bytes of a neighbour at all. -/
def isHost (B : Binary) (J : Nat) : Bool :=
  if unused (B.STATE J 0) then true
  else if B.STATE J 0 = STATE_PATCHED ∨ B.STATE J 0 = STATE_PATCHED.lock then
    B.STATE J ((B.Is J).size - 1) = STATE_FREE
  else false

/-- The loop of T3 over the neighbours from `J` downwards. -/
def tactic_T3Loop (I : Nat) (T : Trampoline) :
    Nat → Option Nat → Binary → Except Fault (Binary × Option (Nat × Int) × List Patch)
  | 0, _, B => .ok (B, none, [])
  | _, none, B => .ok (B, none, [])
  | fuel + 1, some J, B =>
    if J = I then tactic_T3Loop I T fuel (B.prev J) B
    else if !B.options.option_tactic_backward_T3 ∧ (B.Is J).addr < (B.Is I).addr then
      .ok (B, none, [])
    else if ((B.Is I).addr + 2) - ((B.Is J).addr + (B.Is J).size - 1) > -SHORT_JMP_MIN then
      .ok (B, none, [])
    else if !B.isHost J then tactic_T3Loop I T fuel (B.prev J) B
    else do
      let r ← tactic_T3Bytes I J T B (List.range (B.Is J).size)
      match r.2.1 with
      | none => tactic_T3Loop I T fuel (r.1.prev J) r.1
      | some _ => .ok r

/-- Tactic T3: evict a neighbour instruction. -/
def tactic_T3 (I : Nat) (T : Trampoline) (B : Binary) : Except Fault (Binary × List Patch) :=
  if (B.Is I).size = 1 then tactic_T3b I T B
  else if (B.Is I).size ≥ JMP_SIZE ∨ !B.options.option_tactic_T3 ∨ !B.canPatch I then .ok (B, [])
  else do
    let r ← tactic_T3Loop I T (B.count + 1) (some (B.furthest I I)) B
    match r.2.1 with
    | none => .ok (r.1, [])
    | some (A, addr) =>
      let N := r.1.newPatch I .T3 (some A)
      let B ← N.1.patchShortJump I addr
      let B ← B.patchUnused I 2
      .ok (B, N.2 :: r.2.2)

/-- Step (1) of T0: the first instruction of the batch, and the size so far. -/
def batchStart (B : Binary) : Nat → Nat → Nat → Nat × Nat
  | 0, J, size => (J, size)
  | limit + 1, J, size =>
    if (B.Is J).target then (J, size)
    else
      let size := size + (B.Is J).size
      match B.pred J with
      | none => (J, size)
      | some K =>
        if B.STATE K 0 ≠ STATE_INSTRUCTION ∧ B.STATE K 0 ≠ STATE_QUEUED then (J, size)
        else batchStart B limit K size

/-- Step (2) of T0: the last instruction of the batch. -/
def batchEnd (B : Binary) : Nat → Nat → Nat → Bool → Nat
  | 0, L, _, _ => L
  | fuel + 1, L, size, cft =>
    if cft ∨ size ≥ 5 then L
    else match B.succ L with
      | none => L
      | some K =>
        if (B.Is K).target ∨ !B.canPatch K ∨ (B.Is K).isBreak then L
        else batchEnd B fuel K (size + (B.Is K).size) (isCFT (B.ORIG K) ⟨true, true, true, false⟩)

/-- Step (3) of T0: "free" all batched instructions, from `K` down to `J`. -/
def freeBatch (J : Nat) : Nat → Option Nat → List Patch → Binary → Except Fault (Binary × List Patch)
  | 0, _, Ps, B => .ok (B, Ps)
  | _, none, Ps, B => .ok (B, Ps)
  | fuel + 1, some K, Ps, B =>
    if (B.Is K).addr < (B.Is J).addr then .ok (B, Ps)
    else do
      let N := B.newPatch K .T0 none
      let B ← N.1.patchUnused K 0
      freeBatch J fuel (B.pred K) (N.2 :: Ps) B

/-- Tactic T0: batch instructions that are not jump targets. -/
def tactic_T0 (I : Nat) (T : Trampoline) (B : Binary) : Except Fault (Binary × List Patch) :=
  if !B.options.option_tactic_T0 ∨ !B.options.option_OCFR ∨ !B.canPatch I ∨ (B.Is I).T ≠ some T then
    .ok (B, [])
  else
    let J := B.batchStart T0_LIMIT I 0
    let L := B.batchEnd B.count I J.2 false
    let J := J.1
    if J = L then .ok (B, [])
    else do
      let P ← freeBatch J (B.count + 1) (some L) [] B
      let U : Trampoline := .batch (B.Is L).addr
      let Q ← evict J .T0 U P.1
      if Q.2.isEmpty then .ok (Q.1.undo P.2, [])
      else .ok (Q.1, setNext Q.2 P.2)

/-- All patching tactics in order T0/B1/B2/T1/T2/T3, and B0 last. -/
def tactics (I : Nat) (T : Trampoline) (B : Binary) : Except Fault (Binary × List Patch) := do
  let P ← tactic_T0 I T B
  let P ← orTry P (tactic_B1 I T .B1)
  let P ← orTry P (tactic_B2 I T .B2)
  let P ← orTry P (tactic_T1 I T .T1)
  let P ← orTry P (tactic_T2 I T)
  let P ← orTry P (tactic_T3 I T)
  orTry P (tactic_B0 I T)

/-- Patch the instruction. The result is the tactic that succeeded, if one did: `patch` returns whether
there is one, and counts it. -/
def patch (I : Nat) (T : Trampoline) (B : Binary) : Except Fault (Binary × Option Tactic) :=
  if B.STATE I 0 ≠ STATE_INSTRUCTION then
    .error (.error "failed to patch instruction 0x%lx (%zu) with invalid state (0x%.2X) (maybe \"patch\" messages are not sent in reverse order?)")
  else do
    let P ← tactics I T B
    match P.2 with
    | [] => .ok (P.1, none)
    | Q :: _ => .ok (P.1.commit P.2, some Q.tactic)

end Binary

end E9Patch
