import E9Patch.AllocModel
import E9Patch.X86Model

/-!
The data of the backend (`e9patch.h`): trampoline templates, instructions and the binary. The
instruction array grows downwards, as messages come in reverse order; here it is indexed by the order
of arrival, so that `next()` of an instruction is the index before its own. Memory is a map from
offsets, and what `mmap` gives out is zero until it is written. An `assert` that fails, an `error` and
the use of a null pointer end the program, which is a `Fault`; a difference of addresses that overflows in
the allocator has no meaning, and the run ends there too. The build of the backend is that of `make debug`, which
keeps its assertions. Up to the first one that fails, `make release` does the same.
-/

namespace E9Patch
open Bytes

inductive Fault where
  | assertion
  | error (message : String)
  | null
  | overflow
  deriving DecidableEq, Repr

/-- A computation of the allocator as part of a run. -/
def defined {α : Type} (x : Except Overflow α) : Except Fault α := x.mapError fun _ => .overflow

/-- `assert(p)`. -/
def assert (p : Prop) [Decidable p] : Except Fault Unit := if p then .ok () else .error .assertion

/-- The use of a pointer that may be null. -/
def deref {α : Type} (p : Option α) : Except Fault α :=
  match p with
  | none => .error .null
  | some a => .ok a

/-- The states of each virtual memory byte. -/
inductive StateKind where
  | UNKNOWN
  | INSTRUCTION
  | PATCHED
  | FREE
  | OVERFLOW
  | QUEUED
  deriving DecidableEq, Repr

/-- A state byte: one of the kinds, and the bit `STATE_LOCKED`. -/
structure ByteState where
  kind : StateKind
  locked : Bool
  deriving DecidableEq, Repr

def STATE_UNKNOWN : ByteState := ⟨.UNKNOWN, false⟩
def STATE_INSTRUCTION : ByteState := ⟨.INSTRUCTION, false⟩
def STATE_PATCHED : ByteState := ⟨.PATCHED, false⟩
def STATE_FREE : ByteState := ⟨.FREE, false⟩
def STATE_OVERFLOW : ByteState := ⟨.OVERFLOW, false⟩
def STATE_QUEUED : ByteState := ⟨.QUEUED, false⟩

/-- `state | STATE_LOCKED`. -/
def ByteState.lock (s : ByteState) : ByteState := { s with locked := true }

/-- What a data entry holds: the use of a label, or a constant. -/
inductive Value where
  | label (label : String)
  | uint64 (value : Nat)
  deriving DecidableEq, Repr

/-- A trampoline template entry. -/
inductive Entry where
  | DEBUG
  | BYTES (bytes : List UInt8)
  | ZEROES (length : Nat)
  | LABEL (label : String)
  | MACRO (macro_ : String)
  | REL8 (value : Value)
  | REL32 (value : Value)
  | INT8 (value : Value)
  | INT16 (value : Value)
  | INT32 (value : Value)
  | INT64 (value : Value)
  | INSTR
  | INSTR_BYTES
  | BREAK (optimize : Bool)
  | TAKE
  | BATCH (addr : Int)
  deriving DecidableEq, Repr

/-- A trampoline template that came with a message; `id` tells two of the same text apart. -/
structure Template where
  id : Nat
  entries : List Entry
  deriving DecidableEq, Repr

/-- A pointer to a trampoline template: the evictee trampoline, one that tactic T0 built, or one that
came with a message. -/
inductive Trampoline where
  | evictee
  | batch (addr : Int)
  | user (template : Template)
  deriving DecidableEq, Repr

def evicteeTrampoline : Trampoline := .evictee

def Trampoline.entries : Trampoline → List Entry
  | .evictee => [.INSTR, .BREAK true]
  | .batch addr => [.BATCH addr]
  | .user T => T.entries

structure MetaEntry where
  name : String
  T : Trampoline
  deriving DecidableEq, Repr

structure Instr where
  offset : Nat
  size : Nat
  pcrel32_idx : Nat
  pcrel8_idx : Nat
  target : Bool
  pic : Bool
  debug : Bool
  patch : Bool
  is_patched : Bool
  is_evicted : Bool
  no_optimize : Bool
  addr : Int
  metadata : List MetaEntry
  T : Option Trampoline
  deriving DecidableEq, Repr

/-- An instruction that was not sent yet, as the zero memory shows it. -/
def Instr.zero : Instr :=
  { offset := 0, size := 0, pcrel32_idx := 0, pcrel8_idx := 0, target := false, pic := false,
    debug := false, patch := false, is_patched := false, is_evicted := false, no_optimize := false,
    addr := 0, metadata := [], T := none }

/-- The options that no message or argument has changed. -/
def defaultOptions : Options :=
  { option_Ocall := false, option_OCFR := false, option_Oepilogue := 0, option_Oepilogue_size := 64
    option_Oorder := false, option_Opeephole := true, option_Oprologue := 0
    option_Oprologue_size := 64, option_Oscratch_stack := false, option_batch := false
    option_tactic_B0 := false, option_tactic_B1 := true, option_tactic_B2 := true
    option_tactic_T0 := true, option_tactic_T1 := true, option_tactic_T2 := true
    option_tactic_T3 := true, option_tactic_backward_T3 := true, option_loader_base := 0x20e9e9000
    option_trap := [], option_trap_all := false, option_mem_multi_page := true
    option_mem_lb := RELATIVE_ADDRESS_MIN, option_mem_ub := RELATIVE_ADDRESS_MAX }

inductive Mode where
  | ELF_EXE
  | ELF_DSO
  | PE_EXE
  | PE_DLL
  | APE_EXE
  deriving DecidableEq, Repr

/-- Trampoline entry point information. -/
structure EntryPoint where
  I : Nat
  entry : Int
  target8 : Bool
  target32 : Bool
  deriving DecidableEq, Repr

/-- A map over addresses, in ascending order of the keys. -/
abbrev EntrySet := List (Int × EntryPoint)

/-- A patch queue entry. An options entry has the options that parsing `argv` results in, and what the
target analysis of the binary gives under them. -/
inductive PatchEntry where
  | options (options : Options) (analysis : Option (Nat → Bool))
  | patch (I : Nat) (T : Template)

/-- The binary, and the global options. The queue is kept from its back to its front. -/
structure Binary where
  size : Nat
  mode : Mode
  pic : Bool
  config : Int
  original : Nat → UInt8
  bytes : Nat → UInt8
  state : Nat → ByteState
  cursor : Int
  Q : List PatchEntry
  Is : Nat → Instr
  count : Nat
  Ts : List MetaEntry
  Es : EntrySet
  Traps : List Nat
  allocator : Tree Trampoline Nat
  targets : Option (Nat → Bool)
  options : Options

namespace Binary

/-- A pointer into the instruction array, which is null where the offset is zero. -/
def instrAt (B : Binary) (k : Nat) : Option Nat := if (B.Is k).offset = 0 then none else some k

def prev (B : Binary) (k : Nat) : Option Nat := B.instrAt (k + 1)

def next (B : Binary) : Nat → Option Nat
  | 0 => none
  | k + 1 => B.instrAt k

def pred (B : Binary) (k : Nat) : Option Nat :=
  (B.prev k).filter fun j => (B.Is j).offset + (B.Is j).size = (B.Is k).offset

def succ (B : Binary) (k : Nat) : Option Nat :=
  (B.next k).filter fun j => (B.Is k).offset + (B.Is k).size = (B.Is j).offset

/-- `I->ORIG`, `I->PATCH` and `I->STATE`. -/
def ORIG (B : Binary) (k : Nat) : List UInt8 :=
  (List.range (B.Is k).size).map fun i => B.original ((B.Is k).offset + i)

def PATCH (B : Binary) (k i : Nat) : UInt8 := B.bytes ((B.Is k).offset + i)
def STATE (B : Binary) (k i : Nat) : ByteState := B.state ((B.Is k).offset + i)

def setByte (B : Binary) (p : Nat) (b : UInt8) : Binary :=
  { B with bytes := fun q => if q = p then b else B.bytes q }

def setState (B : Binary) (p : Nat) (s : ByteState) : Binary :=
  { B with state := fun q => if q = p then s else B.state q }

def setInstr (B : Binary) (k : Nat) (I : Instr) : Binary :=
  { B with Is := fun j => if j = k then I else B.Is j }

end Binary

/-! ### Trampoline entry points -/

def EntrySet.find (Es : EntrySet) (addr : Int) : Option EntryPoint :=
  (List.find? (fun E => E.1 = addr) Es).map (·.2)

/-- `Es.insert`: what is there already stays. -/
def EntrySet.insert : EntrySet → Int → EntryPoint → EntrySet
  | [], addr, E => [(addr, E)]
  | (a, F) :: Es, addr, E =>
    if addr < a then (addr, E) :: (a, F) :: Es
    else if addr = a then (a, F) :: Es
    else (a, F) :: EntrySet.insert Es addr E

def EntrySet.setEntry (Es : EntrySet) (addr entry : Int) : EntrySet :=
  Es.map fun E => if E.1 = addr then (E.1, { E.2 with entry := entry }) else E

/-- Set the corresponding trampoline entry. -/
def setTrampolineEntry (B : Binary) (I : Nat) (entry : Int) : Binary :=
  let addr := (B.Is I).addr
  { B with Es :=
      match EntrySet.find B.Es addr with
      | none => if entry ≠ INTPTR_MIN then EntrySet.insert B.Es addr ⟨I, entry, false, false⟩ else B.Es
      | some _ => EntrySet.setEntry B.Es addr entry }

end E9Patch
