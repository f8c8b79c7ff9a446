import E9Patch.FunctionDiscovery
import E9Patch.GraphEdges
import E9Patch.Numerals
import E9Patch.Overlay

/-!
The analysis pipeline, the diff of two objects and the application of its patches (`e9_binary_analyze`,
`e9_diff_objects` and `e9studio_apply_pending_patches`). Calling conventions, debug information and source mappings
are left out: they change neither the name nor the place of a function. A division by zero counts as not coming back;
memory is there, but for what the allocator says of the detection and the symbols.
-/

namespace E9Patch
open Reader Overlay Numerals

/-! ### The analysis -/

/-- The fuel of the loops of an analysis: of each body, of the recursion, of each scan, and of each graph. -/
structure AnalysisFuel where
  steps : Nat
  calls : Nat
  scan : Nat
  graph : Nat
  deriving DecidableEq, Repr

/-- The symbol that a function without one gets. -/
def autoSymbol (func : E9Function) : Symbol :=
  ⟨some (ascii "sub_" ++ numeral 16 func.address), func.address, func.size, .FUNCTION, false, false⟩

/-- Generate symbols for functions without names. -/
def e9_symbols_auto : List E9Function → List Symbol → List E9Function × List Symbol
  | [], symbols => ([], symbols)
  | func :: functions, symbols =>
    if func.symbol.isSome then
      let r := e9_symbols_auto functions symbols
      (func :: r.1, r.2)
    else
      let sym := autoSymbol func
      let r := e9_symbols_auto functions (sym :: symbols)
      ({ func with symbol := some sym, name := sym.name } :: r.1, r.2)

/-- Step 4: build the graph of each function. -/
def buildGraphs (d : Block) (bin : E9Binary) (fuel : Nat) : List E9Function → Except Fault (List E9Function)
  | [] => .ok []
  | func :: functions =>
    match e9_cfg_build (disassembled d bin) fuel func with
    | none => .error .diverges
    | some cfg => do
      let functions ← buildGraphs d bin fuel functions
      .ok ({ func with cfg := some cfg } :: functions)

/-- What is returned, the binary, and its functions. -/
def e9_binary_analyze (d : Block) (alloc : AnalysisAllocator) (fuel : AnalysisFuel) :
    Except Fault (Int × E9Binary × List E9Function) := do
  let (r, bin) ← e9_binary_detect d alloc E9Binary.zero
  if r ≠ 0 ∨ bin.arch = .UNKNOWN then .ok (-1, bin, [])
  else
    match ← e9_symbols_parse d alloc bin with
    | none => .error .diverges
    | some (_, bin) => do
      let s ← e9_functions_discover d bin fuel.steps fuel.calls fuel.scan .empty
      let functions ← buildGraphs d bin fuel.graph s.functions
      let r := e9_symbols_auto functions bin.symbols
      .ok (0, { bin with symbols := r.2 }, r.1)

/-- The first function of that name; no function is found for no name. -/
def e9_function_by_name (functions : List E9Function) (name : Option (List UInt8)) : Option E9Function :=
  name.bind fun s => functions.find? (·.name = some s)

/-! ### The diff -/

/-- A patch of a patch set. -/
structure ObjectPatch where
  address : Nat
  size : Nat
  old_bytes : List UInt8
  new_bytes : List UInt8
  description : List UInt8
  deriving DecidableEq, Repr

structure E9PatchSet where
  patches : List ObjectPatch
  error : Option String
  deriving DecidableEq, Repr

def MAX_DIFF_PATCHES : Nat := 1024

/-- The place of an address in the image: the base address is taken off. -/
def imageOffset (bin : E9Binary) (addr : Nat) : Nat :=
  addrPlus addr (if bin.base_address ≠ 0 then -bin.base_address else 0)

section
variable (old_obj new_obj : Block) (old_off new_off min_size : Nat)

/-- Whether the bytes at index `i` differ. -/
def differAt (i : Nat) : Except Fault Bool := do
  let b ← read old_obj (ptr (old_off + i)) 1
  let c ← read new_obj (ptr (new_off + i)) 1
  .ok (b ≠ c)

/-- Find extent of change. -/
def patchExtent (i : Nat) : Nat → Nat → Except Fault Nat
  | 0, _ => .error .diverges
  | fuel + 1, patch_size =>
    if i + patch_size < min_size then do
      let differ ← differAt old_obj new_obj old_off new_off (i + patch_size)
      if differ then patchExtent i fuel (patch_size + 1) else .ok patch_size
    else .ok patch_size

/-- `Patch %s+0x%x (%u bytes)`, cut to 255 characters. -/
def patchDescription (new_func : E9Function) (i patch_size : Nat) : List UInt8 :=
  (ascii "Patch " ++ new_func.name.getD (ascii "func") ++ ascii "+0x" ++ numeral 16 i ++ ascii " (" ++
    numeral 10 patch_size ++ ascii " bytes)").take 255

/-- The patch for the `patch_size` bytes from index `i` on; the array has room for `MAX_DIFF_PATCHES`. -/
def addPatch (old_func new_func : E9Function) (i : Nat) (patches : List ObjectPatch) :
    Except Fault (Nat × List ObjectPatch) :=
  if patches.length < MAX_DIFF_PATCHES then do
    let patch_size ← patchExtent old_obj new_obj old_off new_off min_size i min_size 1
    let old_bytes ← copy old_obj (ptr (old_off + i)) patch_size
    let new_bytes ← copy new_obj (ptr (new_off + i)) patch_size
    .ok (patch_size, patches ++
      [⟨addrPlus old_func.address i, patch_size, old_bytes, new_bytes, patchDescription new_func i patch_size⟩])
  else .error .outOfBounds

/-- Byte-by-byte comparison. -/
def diffBytes (old_func new_func : E9Function) : Nat → Nat → List ObjectPatch → Except Fault (List ObjectPatch)
  | 0, _, _ => .error .diverges
  | fuel + 1, i, patches =>
    if i < min_size then do
      let differ ← differAt old_obj new_obj old_off new_off i
      if differ then do
        let r ← addPatch old_obj new_obj old_off new_off min_size old_func new_func i patches
        diffBytes old_func new_func fuel (i + r.1) r.2
      else diffBytes old_func new_func fuel (i + 1) patches
    else .ok patches

end

variable (old_obj new_obj : Block)

/-- Compare function contents. -/
def diffFunction (old_bin new_bin : E9Binary) (old_func new_func : E9Function) (patches : List ObjectPatch) :
    Except Fault (List ObjectPatch) :=
  let min_size := min old_func.size new_func.size
  diffBytes old_obj new_obj (imageOffset old_bin old_func.address) (imageOffset new_bin new_func.address) min_size
    old_func new_func (min_size + 1) 0 patches

/-- Compare functions. -/
def diffFunctions (old_bin new_bin : E9Binary) (old_functions : List E9Function) :
    List E9Function → List ObjectPatch → Except Fault (List ObjectPatch)
  | [], patches => .ok patches
  | new_func :: new_functions, patches =>
    if patches.length < MAX_DIFF_PATCHES then
      match e9_function_by_name old_functions new_func.name with
      | none => diffFunctions old_bin new_bin old_functions new_functions patches
      | some old_func => do
        let patches ← diffFunction old_obj new_obj old_bin new_bin old_func new_func patches
        diffFunctions old_bin new_bin old_functions new_functions patches
    else .ok patches

def e9_diff_objects (old_alloc new_alloc : AnalysisAllocator) (fuel : AnalysisFuel) : Except Fault E9PatchSet :=
  if old_obj.size < 16 ∨ new_obj.size < 16 then .ok ⟨[], some "Failed to create binary contexts"⟩
  else do
    let (_, old_bin, old_functions) ← e9_binary_analyze old_obj old_alloc fuel
    let (_, new_bin, new_functions) ← e9_binary_analyze new_obj new_alloc fuel
    let patches ← diffFunctions old_obj new_obj old_bin new_bin old_functions new_functions []
    .ok ⟨patches, none⟩

/-! ### The application -/

/-- The loop over the patches, on a binary of `size` bytes: how many are applied, and the data. -/
def e9studio_apply_pending_patches (bin : E9Binary) (size : Nat) :
    List ObjectPatch → Nat → (Nat → UInt8) → Except Fault (Nat × (Nat → UInt8))
  | [], applied, data => .ok (applied, data)
  | patch :: patches, applied, data =>
    let offset := imageOffset bin patch.address
    if (offset + patch.size) % 2 ^ 64 > size then e9studio_apply_pending_patches bin size patches applied data
    else if offset + patch.size > size then .error .outOfBounds
    else
      e9studio_apply_pending_patches bin size patches (applied + 1)
        (Write.apply ⟨offset, patch.new_bytes.take patch.size⟩ data)

end E9Patch
