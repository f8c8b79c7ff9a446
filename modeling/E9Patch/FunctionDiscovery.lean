import E9Patch.AnalysisGraph

/-!
The discovery of functions (`e9_functions_discover` and `e9_function_add`). A function that is pointed to is known by
its place from the end of the list, since functions are added in front. Loops and the recursion have fuel; memory is
there. The debug information of a function and what the analysis of its stack sets are left out.
-/

namespace E9Patch
open Reader

/-- The functions of a binary, the last one added in front. -/
structure FunctionList where
  functions : List E9Function
  num_functions : Nat
  deriving DecidableEq, Repr

def FunctionList.empty : FunctionList := ⟨[], 0⟩

/-- The function starts at the address, or has it in its range. -/
def E9Function.holds (func : E9Function) (addr : Nat) : Bool :=
  func.address = addr || func.end_address ≠ 0 && addr ≥ func.address && addr < func.end_address

def e9_function_at (functions : List E9Function) (addr : Nat) : Option E9Function :=
  functions.find? (·.holds addr)

/-- What `e9_function_add` makes of an address that no function is found at. -/
def E9Function.start (addr : Nat) (name : Option (List UInt8)) : E9Function := ⟨name, addr, 0, 0, none, none⟩

/-- The list and the place of the function, which is new if none is found at the address that starts there. -/
def e9_function_add (s : FunctionList) (addr : Nat) (name : Option (List UInt8)) : FunctionList × Nat :=
  match s.functions.findIdx? (·.holds addr) with
  | some i =>
    if (s.functions[i]?.map (·.address)) = some addr then (s, s.functions.length - 1 - i)
    else (⟨E9Function.start addr name :: s.functions, (s.num_functions + 1) % 2 ^ 32⟩, s.functions.length)
  | none => (⟨E9Function.start addr name :: s.functions, (s.num_functions + 1) % 2 ^ 32⟩, s.functions.length)

/-- A write through the pointer to the function at a place. -/
def FunctionList.update (s : FunctionList) (place : Nat) (f : E9Function → E9Function) : FunctionList :=
  { s with functions := s.functions.modify (s.functions.length - 1 - place) f }

/-! ### Symbols -/

/-- Method 1: from symbols. -/
def discoverSymbols : List Symbol → FunctionList → FunctionList
  | [], s => s
  | sym :: symbols, s =>
    if sym.type = .FUNCTION then
      let r := e9_function_add s sym.address sym.name
      discoverSymbols symbols (r.1.update r.2 fun func => { func with symbol := some sym, size := sym.size % 2 ^ 32 })
    else discoverSymbols symbols s

/-! ### Following calls -/

variable (d : Block) (bin : E9Binary)

/-- An unconditional jump out of the 64 KiB from the start. -/
def leavesBody (start : Nat) (insn : Insn) : Prop :=
  insn.category = .JUMP ∧ insn.is_conditional = false ∧ (insn.target < start ∨ insn.target > addrPlus start 0x10000)

instance (start : Nat) (insn : Insn) : Decidable (leavesBody start insn) := inferInstanceAs (Decidable (_ ∧ _ ∧ _))

/-- Recursively discover a called function. -/
def followCall (follow : FunctionList → Nat → Except Fault FunctionList) (s : FunctionList) (insn : Insn) :
    Except Fault FunctionList :=
  if insn.category = .CALL ∧ insn.target_is_indirect = false then follow s insn.target else .ok s

/-- The loop over the instructions of a body, with what is done for a called address: the list, the end that a return
or a jump sets (else 0), and the address it stops at. -/
def bodyLoop (follow : FunctionList → Nat → Except Fault FunctionList) (start : Nat) :
    Nat → FunctionList → Nat → Except Fault (FunctionList × Nat × Nat)
  | 0, _, _ => .error .diverges
  | fuel + 1, s, addr =>
    if addr < addrPlus start 0x10000 then do
      match ← e9_disasm_instruction d bin addr with
      | none => .ok (s, 0, addr)
      | some insn =>
        if insn.category = .RET then .ok (s, addrPlus addr insn.size, addr)
        else do
          let s ← followCall follow s insn
          if leavesBody start insn then .ok (s, addrPlus addr insn.size, addr)
          else bodyLoop follow start fuel s (addrPlus addr insn.size)
    else .ok (s, 0, addr)

/-- The end of a function and its size. -/
def closeFunction (start e addr : Nat) (func : E9Function) : E9Function :=
  let fin := if e ≠ 0 then e else addr
  { func with end_address := fin, size := (fin + (2 ^ 64 - start)) % 2 ^ 32 }

/-- Method 2: `steps` is the fuel of each body. -/
def discover_functions_recursive (steps : Nat) : Nat → FunctionList → Nat → Except Fault FunctionList
  | 0, _, _ => .error .diverges
  | fuel + 1, s, start =>
    if (e9_function_at s.functions start).isSome then .ok s
    else do
      let r := e9_function_add s start none
      let (s, e, addr) ← bodyLoop d bin (discover_functions_recursive steps fuel) start steps r.1 start
      .ok (s.update r.2 (closeFunction start e addr))

/-! ### Scanning for prologues -/

/-- The first bytes of a function that sets up its frame. -/
def isPrologue (offset : Nat) : Except Fault Bool :=
  match bin.arch with
  | .X86_64 => do
    let code ← copy d offset 4
    .ok (code = [0x55, 0x48, 0x89, 0xE5] || code.take 3 = [0x48, 0x83, 0xEC] ||
      code.take 1 = [0x41] && (code.drop 1).head?.any fun b => 0x54 ≤ b && b ≤ 0x57)
  | .AARCH64 => do
    let insn_word ← read d offset 4
    .ok (insn_word &&& 0xFFE00000 = 0xA9800000 && insn_word &&& 0x1F = 29 && (insn_word >>> 10) &&& 0x1F = 30)
  | .UNKNOWN => .ok false

def discoverIf (steps fuel : Nat) (found : Bool) (s : FunctionList) (addr : Nat) : Except Fault FunctionList :=
  if found then discover_functions_recursive d bin steps fuel s addr else .ok s

/-- The loop over a section, up to `fin`. -/
def scanText (steps fuel fin : Nat) : Nat → FunctionList → Nat → Except Fault FunctionList
  | 0, _, _ => .error .diverges
  | scan + 1, s, addr =>
    if addr < fin then
      if (e9_function_at s.functions addr).isSome then scanText steps fuel fin scan s (addrPlus addr 16)
      else
        let offset := addrPlus addr (if bin.base_address ≠ 0 then -bin.base_address else 0)
        if (offset + 16) % 2 ^ 64 > d.size then .ok s
        else do
          let prologue ← isPrologue d bin offset
          let s ← discoverIf d bin steps fuel prologue s addr
          scanText steps fuel fin scan s (addrPlus addr (if bin.arch = .AARCH64 then 4 else 1))
    else .ok s

def TEXT_SECTION : List UInt8 := [0x2e, 0x74, 0x65, 0x78, 0x74]

/-- Method 3: the sections named `.text`; `scan` is the fuel of each loop over a section. -/
def discover_functions_heuristic (steps fuel scan : Nat) : List SectionInfo → FunctionList → Except Fault FunctionList
  | [], s => .ok s
  | sec :: sections, s =>
    if sec.name = TEXT_SECTION then do
      let s ← scanText d bin steps fuel (addrPlus sec.addr sec.size) scan s sec.addr
      discover_functions_heuristic steps fuel scan sections s
    else discover_functions_heuristic steps fuel scan sections s

def e9_functions_discover (steps fuel scan : Nat) (s : FunctionList) : Except Fault FunctionList := do
  let s := discoverSymbols bin.symbols s
  let s ← discoverIf d bin steps fuel (bin.entry_point ≠ 0) s bin.entry_point
  if bin.format = .RAW then .ok s
  else discover_functions_heuristic d bin steps fuel scan bin.sections s

/-! ### Sequences of calls -/

inductive DiscoveryCall where
  | discover
  | add (addr : Nat) (name : Option (List UInt8))
  deriving DecidableEq, Repr

def DiscoveryCall.step (steps fuel scan : Nat) (s : FunctionList) : DiscoveryCall → Except Fault FunctionList
  | .discover => e9_functions_discover d bin steps fuel scan s
  | .add addr name => .ok (e9_function_add s addr name).1

/-- The calls one behind the other. -/
def discoveryRun (steps fuel scan : Nat) : List DiscoveryCall → FunctionList → Except Fault FunctionList
  | [], s => .ok s
  | call :: calls, s => do
    let s ← call.step d bin steps fuel scan s
    discoveryRun steps fuel scan calls s

end E9Patch
