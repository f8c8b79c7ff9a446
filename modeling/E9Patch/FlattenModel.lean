import E9Patch.TrampolineModel

/-!
Flattening (`e9trampoline.cpp`): once a trampoline has its address, one pass computes the labels and the
breaks of a batch, and a second one writes the bytes. Each walks the entries by itself and keeps its own
count of the address. Neither bounds its recursion; the size pass has refused what is deeper than
`MACRO_DEPTH_MAX`, and the stack that would overflow is a fault.
-/

namespace E9Patch
open Bytes

/-- Label set. A label belongs to the instruction that it was met for. -/
abbrev LabelSet := List ((Int × String) × Int)

def LabelSet.find (labels : LabelSet) (addr : Int) (name : String) : Option Int :=
  (List.find? (fun l => l.1 = (addr, name)) labels).map (·.2)

/-- What the pass for the labels carries along. -/
structure LabelPass where
  addr : Int
  breaks : BreakInfo
  labels : LabelSet
  deriving DecidableEq, Repr

def LabelPass.advance (a : LabelPass) (n : Int) : LabelPass := { a with addr := a.addr + n }

@[simp] theorem LabelPass.advance_addr (a : LabelPass) (n : Int) : (a.advance n).addr = a.addr + n := rfl
@[simp] theorem LabelPass.advance_breaks (a : LabelPass) (n : Int) : (a.advance n).breaks = a.breaks := rfl
@[simp] theorem LabelPass.advance_labels (a : LabelPass) (n : Int) : (a.advance n).labels = a.labels := rfl

/-- `relocateInstr(I, addr)` without a buffer, as the pass for the labels calls it. -/
def relocateLength (B : Binary) (I : Nat) (addr : Int) : Int :=
  (relocateInstrTo B I addr ⟨[], UINT32_MAX⟩).1

/-- What `buildLabelSet` does for a member of a batch. -/
def memberLabels (B : Binary) (rec : Trampoline → Option Nat → Bool → LabelPass → Except Fault LabelPass)
    (a : LabelPass) (I : Nat) (last : Bool) : Except Fault (Option LabelPass) := do
  let a ← match (B.Is I).T with
    | some T => rec T (some I) last a
    | none => .ok (a.advance (relocateLength B I a.addr))
  .ok (some (if last then a else { a with breaks := a.breaks.insert (B.Is I).addr a.addr }))

/-- What `buildLabelSet` does for an entry, and the instruction for the entries behind it. -/
def entryLabels (B : Binary) (rec : Trampoline → Option Nat → Bool → LabelPass → Except Fault LabelPass)
    (last : Bool) (entry : Entry) (isLast : Bool) (I : Option Nat) (a : LabelPass) :
    Except Fault (Option Nat × LabelPass) :=
  match entry with
  | .DEBUG => .ok (I, a.advance (if I.any fun I => (B.Is I).debug then 1 else 0))
  | .BYTES bytes => .ok (I, a.advance bytes.length)
  | .ZEROES length => .ok (I, a.advance length)
  | .INT8 _ => .ok (I, a.advance 1)
  | .INT16 _ => .ok (I, a.advance 2)
  | .INT32 _ => .ok (I, a.advance 4)
  | .INT64 _ => .ok (I, a.advance 8)
  | .LABEL label => do
    let J ← deref I
    match a.labels.find (B.Is J).addr label with
    | some _ => .error (.error "failed to build trampoline; duplicate label \"%s\"")
    | none => .ok (I, { a with labels := (((B.Is J).addr, label), a.addr) :: a.labels })
  | .MACRO name => do
    let J ← deref I
    match expandMacro B (B.Is J).metadata name with
    | none => .error (.error "failed to build trampoline; metadata for macro \"%s\" is missing")
    | some U =>
      let a ← rec U I last a
      .ok (I, a)
  | .REL8 _ => .ok (I, a.advance 1)
  | .REL32 _ => .ok (I, a.advance 4)
  | .INSTR => do
    let J ← deref I
    -- a relocation that fails counts as -1
    .ok (I, a.advance (relocateLength B J a.addr))
  | .INSTR_BYTES => do
    let J ← deref I
    .ok (I, a.advance (B.Is J).size)
  | .BREAK optimize => do
    let J ← deref I
    let r ← buildBreak B J a.addr (!last && isLast) (last && optimize) .SIZE a.breaks ⟨[], UINT32_MAX⟩
    .ok (I, a.advance r.1)
  | .TAKE => .ok (I, a.advance 5)
  | .BATCH addr => do
    match ← batchLoop B addr (memberLabels B rec) (B.count + 1) a none I with
    | none => .ok (I, a)
    | some (a, J, I) =>
      let J ← deref J
      if (B.Is J).T = none then do
        let r ← buildBreak B J 0 false true .SIZE a.breaks ⟨[], UINT32_MAX⟩
        .ok (I, a.advance r.1)
      else .ok (I, a)

def entriesLabels (B : Binary) (rec : Trampoline → Option Nat → Bool → LabelPass → Except Fault LabelPass)
    (last : Bool) : List Entry → Option Nat → LabelPass → Except Fault LabelPass
  | [], _, a => .ok a
  | entry :: entries, I, a => do
    let (I, a) ← entryLabels B rec last entry entries.isEmpty I a
    entriesLabels B rec last entries I a

/-- Build the set of labels. -/
def buildLabelSet (B : Binary) : Nat → Trampoline → Option Nat → Bool → LabelPass → Except Fault LabelPass
  | 0, _, _, _, _ => .error .null
  | fuel + 1, T, I, last, a => entriesLabels B (buildLabelSet B fuel) last T.entries I a

/-- Lookup a label value, relative to `addr`. -/
def lookupLabel (B : Binary) (label : String) (I : Option Nat) (addr : Int) (labels : LabelSet) :
    Except Fault Int :=
  if label.toList[0]? ≠ some '.' ∧ label.toList[1]? ≠ some 'L' then
    .error (.error "failed to build trampoline at address 0x%lx; unknown prefix for \"%s\" label")
  else match I with
    | none => if label = ".Lconfig" then .ok (B.config - addr) else .error .null
    | some I => do
      let target ← getBuiltinLabelAddress B I label
      if target ≠ INTPTR_MIN then .ok (target - addr)
      else match labels.find (B.Is I).addr label with
        | none => .error (.error "failed to build trampoline at address 0x%lx; unknown label \"%s\"")
        | some target => .ok (target - addr)

/-- The value of a data entry. -/
def entryValue (B : Binary) (I : Option Nat) (addr : Int) (labels : LabelSet) : Value → Except Fault Int
  | .label label => do
    let val ← lookupLabel B label I addr labels
    .ok (val + addr)
  | .uint64 value => .ok value

/-- The displacement of a `rel8` or `rel32` entry, from its own address. -/
def entryRel (B : Binary) (I : Option Nat) (addr : Int) (labels : LabelSet) : Value → Except Fault Int
  | .label label => lookupLabel B label I addr labels
  | .uint64 value => .ok (signed64 (value - addr))

/-- What `buildBytes` does for a member of a batch. -/
def memberBytes (B : Binary) (rec : Trampoline → Option Nat → Bool → Buffer → Except Fault Buffer)
    (addr : Int) (buf : Buffer) (I : Nat) (last : Bool) : Except Fault (Option Buffer) :=
  match (B.Is I).T with
  | some T => do
    let buf ← rec T (some I) last buf
    .ok (some buf)
  | none =>
    let r := relocateInstrTo B I (addr + buf.size) buf
    if r.1 < 0 then .error (.error "failed to relocate instruction at address 0x%lx") else .ok (some r.2)

/-- What `buildBytes` does for an entry, and the instruction for the entries behind it. -/
def entryBytes (B : Binary) (rec : Trampoline → Option Nat → Bool → Buffer → Except Fault Buffer)
    (addr : Int) (last : Bool) (breaks : BreakInfo) (labels : LabelSet) (entry : Entry) (isLast : Bool)
    (I : Option Nat) (buf : Buffer) : Except Fault (Option Nat × Buffer) :=
  match entry with
  | .DEBUG => .ok (I, if I.any fun I => (B.Is I).debug then buf.push [0xcc] else buf)
  | .BYTES bytes => .ok (I, buf.push bytes)
  | .ZEROES length => .ok (I, buf.push (List.replicate length 0x0))
  | .INT8 value => do
    let val ← entryValue B I (addr + buf.size) labels value
    .ok (I, buf.push [byte val])
  | .INT16 value => do
    let val ← entryValue B I (addr + buf.size) labels value
    .ok (I, buf.push (le16 val))
  | .INT32 value => do
    let val ← entryValue B I (addr + buf.size) labels value
    .ok (I, buf.push (le32 val))
  | .INT64 value => do
    let val ← entryValue B I (addr + buf.size) labels value
    .ok (I, buf.push (le64 val))
  | .LABEL _ => .ok (I, buf)
  | .MACRO name => do
    let J ← deref I
    match expandMacro B (B.Is J).metadata name with
    | none => .error .assertion
    | some U =>
      let buf ← rec U I last buf
      .ok (I, buf)
  | .REL8 value => do
    let rel ← entryRel B I (addr + buf.size) labels value
    let rel := rel - 1
    if rel < -2 ^ 7 ∨ rel > 2 ^ 7 - 1 then
      .error (.error "failed to build trampoline; rel8 value (%zd) is out-of-range (%d..%d)")
    else .ok (I, buf.push [byte rel])
  | .REL32 value => do
    let rel ← entryRel B I (addr + buf.size) labels value
    let rel := rel - 4
    if rel < -2 ^ 31 ∨ rel > 2 ^ 31 - 1 then
      .error (.error "failed to build trampoline; rel32 value (%zd) is out-of-range (%zd..%zd)")
    else .ok (I, buf.push (le32 rel))
  | .INSTR => do
    let J ← deref I
    -- the source drops the result
    .ok (I, (relocateInstrTo B J (addr + buf.size) buf).2)
  | .INSTR_BYTES => do
    let J ← deref I
    .ok (I, buf.push (B.ORIG J))
  | .BREAK optimize => do
    let J ← deref I
    let r ← buildBreak B J (addr + buf.size) (!last && isLast) (last && optimize) .BYTES breaks buf
    .ok (I, r.2)
  | .TAKE => do
    let J ← deref I
    match getCFTTarget (B.Is J).addr (B.ORIG J) ⟨false, false, false, true⟩ with
    | none =>
      .error (.error "failed to build trampoline; instruction at address 0x%lx is not a conditional branch (as required by \"$taken\")")
    | some target =>
      let rel := target - (addr + buf.size + 5)
      assert (fitsInt32 rel)
      .ok (I, buf.push (0xE9 :: le32 rel))
  | .BATCH last => do
    match ← batchLoop B last (memberBytes B rec addr) (B.count + 1) buf none I with
    | none => .ok (none, buf)
    | some (buf, J, _) =>
      let J ← deref J
      if (B.Is J).T = none then do
        let r ← buildBreak B J (addr + buf.size) false true .BYTES breaks buf
        .ok (none, r.2)
      else .ok (none, buf)

def entriesBytes (B : Binary) (rec : Trampoline → Option Nat → Bool → Buffer → Except Fault Buffer)
    (addr : Int) (last : Bool) (breaks : BreakInfo) (labels : LabelSet) :
    List Entry → Option Nat → Buffer → Except Fault Buffer
  | [], _, buf => .ok buf
  | entry :: entries, I, buf => do
    let (I, buf) ← entryBytes B rec addr last breaks labels entry entries.isEmpty I buf
    entriesBytes B rec addr last breaks labels entries I buf

/-- Build the trampoline bytes. -/
def buildBytes (B : Binary) (addr : Int) (breaks : BreakInfo) (labels : LabelSet) :
    Nat → Trampoline → Option Nat → Bool → Buffer → Except Fault Buffer
  | 0, _, _, _, _ => .error .null
  | fuel + 1, T, I, last, buf =>
    entriesBytes B (buildBytes B addr breaks labels fuel) addr last breaks labels T.entries I buf

/-- The prologue of a flattened trampoline, or its filling, and the entry points it sets. -/
def flattenPrologue (B : Binary) (fill : UInt8) (addr presize : Int) (I : Option Nat) :
    Except Fault (List UInt8 × List (Nat × Int)) :=
  if presize > 0 then do
    let I ← deref I
    let (_, buf, entries) ← buildPrologue B I (addr - presize) .BYTES ⟨[], presize.toNat⟩
    assert (buf.size = presize ∨ buf.size = 0)
    .ok (if buf.size = 0 then List.replicate presize.toNat fill else buf.data, entries)
  else .ok ([], [])

/-- Flatten a trampoline into a memory buffer of `size` bytes: what it then holds, and the entry points
of the prologue. -/
def flattenTrampoline (B : Binary) (size : Nat) (fill : UInt8) (addr offset32 entry32 : Int) (T : Trampoline)
    (I : Option Nat) : Except Fault (List UInt8 × List (Nat × Int)) := do
  let a ← buildLabelSet B (MACRO_DEPTH_MAX + 1) T I true ⟨addr, [], []⟩
  let offset := a.addr - addr
  if offset % 2 ^ 64 > size then
    .error (.error "failed to flatten trampoline for instruction at address 0x%lx; buffer size (%zu) exceeds the trampoline size (%zu)")
  else do
    let presize := signed32 (entry32 - offset32)
    let (pre, entries) ← flattenPrologue B fill addr presize I
    let size := size - presize.toNat
    let buf ← buildBytes B addr a.breaks a.labels (MACRO_DEPTH_MAX + 1) T I true ⟨[], size⟩
    assert (buf.size ≤ size)
    .ok (pre ++ buf.data ++ List.replicate (size - buf.size) fill, entries)

/-- The step of `flattenAllTrampolines` for a reservation: its bytes, if it is a trampoline. -/
def flattenAlloc (B : Binary) (A : Alloc Trampoline Nat) :
    Except Fault (Option (List UInt8 × List (Nat × Int))) :=
  match A.T with
  | none => .ok none
  | some T => do
    let size := (A.ub - A.lb).toNat
    let base := (A.I.map fun I => (B.Is I).addr).getD A.lb
    let offset32 := signed32 (A.lb - base)
    let entry32 := signed32 (offset32 + A.entry)
    let addr := match A.I with
      | none => A.lb
      | some I => (B.Is I).addr + entry32
    let r ← flattenTrampoline B size 0xcc addr offset32 entry32 T A.I
    .ok (some r)

end E9Patch
