import E9Patch.FlattenModel
import E9Patch.TacticsModel

/-!
Flattening all trampolines (`e9trampoline.cpp`): the bytes of every reservation, the entry points that the
prologues set, and the jumps that are saved for `-Opeephole`. A saved jump is noted by the functions of the
pass for the bytes; here the functions of this name follow that pass along and return the jumps alone.
-/

namespace E9Patch
open Bytes Binary

/-- A saved jump: its address, and where its bytes are in the buffer. -/
structure SavedJump where
  addr : Int
  bytes : Nat
  size : Nat
  deriving DecidableEq, Repr

/-- Save a jump instruction for future optimization; `buf'` is the buffer behind it. -/
def saveJump (B : Binary) (addr : Int) (buf buf' : Buffer) : List SavedJump :=
  let bytes := buf'.data.drop buf.size
  if !B.options.option_Opeephole ∨ buf.size ≥ buf.max ∨ !isCFT bytes ⟨false, false, true, false⟩ then []
  else [⟨addr, buf.size, bytes.length⟩]

/-! ### Breaks and prologues -/

/-- The jump of `buildBreakJump`, which is not saved where it fills the buffer up. -/
def breakJumps (B : Binary) (I : Option Nat) (addr : Int) (breaks : BreakInfo) (buf : Buffer) : List SavedJump :=
  match buildBreakJump B I addr .BYTES breaks buf with
  | .error _ => []
  | .ok r =>
    if B.options.option_Opeephole ∧ (I.bind B.succ).isSome ∧ r.2.size < r.2.max then saveJump B addr buf r.2 else []

def epilogueJumps (B : Binary) (breaks : BreakInfo) : Nat → Option Nat → Int → Buffer → List SavedJump
  | 0, _, _, _ => []
  | _ + 1, none, _, _ => []
  | n + 1, some J, addr, buf =>
    if (B.Is J).isBreak then breakJumps B (B.prev J) addr breaks buf
    else
      let r := relocateInstrTo B J addr buf
      if r.1 ≥ 0 then saveJump B addr buf r.2 ++ epilogueJumps B breaks n (B.next J) (addr + r.1 % 2 ^ 32) r.2
      else []

/-- The jumps of `buildBreak`. Those of an epilogue that fails stay saved. -/
def optimizedJumps (B : Binary) (I : Nat) (addr : Int) (fallthrough optimize : Bool) (breaks : BreakInfo)
    (buf : Buffer) : List SavedJump :=
  if fallthrough then []
  else if !optimize || (B.Is I).no_optimize then breakJumps B (some I) addr breaks buf
  else
    let e := findEpilogue B B.options.option_Oepilogue I 0
    if !e.2 then breakJumps B (some I) addr breaks buf
    else
      epilogueJumps B breaks e.1 (B.next I) addr buf ++
        match buildEpilogue B .BYTES breaks e.1 (B.next I) addr buf with
        | .error _ => []
        | .ok r => if !r.1 then breakJumps B (some I) addr breaks (r.2.2.reset buf.size) else []

/-- The jumps of `buildPrologueLoop`. -/
def prologueLoopJumps (B : Binary) (I : Nat) : Nat → Option Nat → Int → Buffer → List SavedJump
  | 0, _, _, _ => []
  | _ + 1, none, _, _ => []
  | fuel + 1, some J, addr, buf =>
    if J = I then []
    else
      let s := relocateInstrTo B J addr buf
      if s.1 < 0 then []
      else saveJump B addr buf s.2 ++ prologueLoopJumps B I fuel (B.next J) (addr + s.1) s.2

/-- The jumps of `buildPrologue`. -/
def prologueJumps (B : Binary) (I : Nat) (addr : Int) (buf : Buffer) : List SavedJump :=
  if !B.options.option_Opeephole then []
  else match getTrampolinePrologueStart B I with
    | .error _ => []
    | .ok J => if J = none ∨ J = some I then [] else prologueLoopJumps B I (B.count + 1) J addr buf

/-! ### The pass for the bytes -/

def batchJumps (B : Binary) (recB : Trampoline → Option Nat → Bool → Buffer → Except Fault Buffer)
    (rec : Trampoline → Option Nat → Bool → Buffer → List SavedJump) (addr stop : Int) :
    Nat → Buffer → Option Nat → List SavedJump
  | 0, _, _ => []
  | _ + 1, _, none => []
  | fuel + 1, buf, some I =>
    if (B.Is I).addr > stop then []
    else
      (match (B.Is I).T with
        | some T => rec T (some I) ((B.Is I).addr = stop) buf
        | none => []) ++
      (match memberBytes B recB addr buf I ((B.Is I).addr = stop) with
        | .ok (some buf) => batchJumps B recB rec addr stop fuel buf (B.next I)
        | _ => [])

def entryJumps (B : Binary) (recB : Trampoline → Option Nat → Bool → Buffer → Except Fault Buffer)
    (rec : Trampoline → Option Nat → Bool → Buffer → List SavedJump) (addr : Int) (last : Bool) (breaks : BreakInfo)
    (entry : Entry) (isLast : Bool) (I : Option Nat) (buf : Buffer) : List SavedJump :=
  match entry, I with
  | .MACRO name, some J =>
    match expandMacro B (B.Is J).metadata name with
    | none => []
    | some U => rec U I last buf
  | .BREAK optimize, some J =>
    optimizedJumps B J (addr + buf.size) (!last && isLast) (last && optimize) breaks buf
  | .BATCH stop, I =>
    batchJumps B recB rec addr stop (B.count + 1) buf I ++
      match batchLoop B stop (memberBytes B recB addr) (B.count + 1) buf none I with
      | .ok (some (buf, some J, _)) =>
        if (B.Is J).T = none then optimizedJumps B J (addr + buf.size) false true breaks buf else []
      | _ => []
  | _, _ => []

def entriesJumps (B : Binary) (recB : Trampoline → Option Nat → Bool → Buffer → Except Fault Buffer)
    (rec : Trampoline → Option Nat → Bool → Buffer → List SavedJump) (addr : Int) (last : Bool) (breaks : BreakInfo)
    (labels : LabelSet) : List Entry → Option Nat → Buffer → List SavedJump
  | [], _, _ => []
  | entry :: entries, I, buf =>
    entryJumps B recB rec addr last breaks entry entries.isEmpty I buf ++
      match entryBytes B recB addr last breaks labels entry entries.isEmpty I buf with
      | .error _ => []
      | .ok r => entriesJumps B recB rec addr last breaks labels entries r.1 r.2

/-- The jumps of `buildBytes`. -/
def bytesJumps (B : Binary) (addr : Int) (breaks : BreakInfo) (labels : LabelSet) :
    Nat → Trampoline → Option Nat → Bool → Buffer → List SavedJump
  | 0, _, _, _, _ => []
  | fuel + 1, T, I, last, buf =>
    entriesJumps B (buildBytes B addr breaks labels fuel) (bytesJumps B addr breaks labels fuel) addr last breaks
      labels T.entries I buf

/-! ### Reservations -/

/-- The jumps of `flattenTrampoline`, with their places counted from the start of the reservation. -/
def flattenedJumps (B : Binary) (size : Nat) (addr offset32 entry32 : Int) (T : Trampoline) (I : Option Nat) :
    List SavedJump :=
  match buildLabelSet B (MACRO_DEPTH_MAX + 1) T I true ⟨addr, [], []⟩ with
  | .error _ => []
  | .ok a =>
    let presize := signed32 (entry32 - offset32)
    (match I with
      | some I => if presize > 0 then prologueJumps B I (addr - presize) ⟨[], presize.toNat⟩ else []
      | none => []) ++
    (bytesJumps B addr a.breaks a.labels (MACRO_DEPTH_MAX + 1) T I true ⟨[], size - presize.toNat⟩).map
      fun J => { J with bytes := presize.toNat + J.bytes }

/-- What flattening has done so far: the binary with the entry points set; of each reservation that is a
trampoline, its bytes and the entry points that its prologue has set; and the jumps that were saved, each with
its reservation. -/
structure Flattened where
  B : Binary
  code : List (Nat × List UInt8 × List (Nat × Int))
  Js : List (Nat × SavedJump)

def flattenNext (s : Flattened) (n : Nat) : Except Fault Flattened := do
  let A := s.B.alloc n
  match A.T, ← flattenAlloc s.B A with
  | some T, some r =>
    let base := (A.I.map fun I => (s.B.Is I).addr).getD A.lb
    let offset32 := signed32 (A.lb - base)
    let entry32 := signed32 (offset32 + A.entry)
    let addr := match A.I with
      | none => A.lb
      | some I => (s.B.Is I).addr + entry32
    .ok
      { B := r.2.foldl (fun B e => setTrampolineEntry B e.1 e.2) s.B
        code := s.code ++ [(n, r)]
        Js := s.Js ++ (flattenedJumps s.B (A.ub - A.lb).toNat addr offset32 entry32 T A.I).map fun J => (n, J) }
  | _, _ => .ok s

/-- The reservations in the order of the allocator. -/
def reservations (B : Binary) : List Nat := B.allocator.visit (B.allocator.heap.fresh + 1) B.allocator.first

/-- Flatten all trampolines. -/
def flattenAllTrampolines (B : Binary) : Except Fault Flattened :=
  (reservations B).foldlM flattenNext ⟨B, [], []⟩

end E9Patch
