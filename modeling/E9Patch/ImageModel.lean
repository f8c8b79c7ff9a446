import E9Patch.FlattenAll
import E9Patch.LoaderModel
import E9Patch.MappingModel
import E9Patch.Overlay
import E9Patch.Refactor

/-!
The mappings in the file and in memory: `flattenMapping` and `getVirtualBounds` of `e9mapping.cpp`, steps (3) and
(4) of `emitElf` as far as they are about mappings, and the calls of `mmap` that the loader makes of the entries.
A chain of merged mappings is one run of the file that is mapped at several addresses. `code` has the bytes of the
allocations, as `flattenAllTrampolines` and `optimizeAllJumps` leave them.
-/

namespace E9Patch
open Bytes Overlay

variable {τ ι : Type}

/-! ### Protections -/

/-- The bits `PROT_READ`, `PROT_WRITE` and `PROT_EXEC`. -/
structure Protection where
  r : Bool
  w : Bool
  x : Bool
  deriving DecidableEq, Repr

def PROT_NONE : Protection := ⟨false, false, false⟩

def Protection.or (p q : Protection) : Protection := ⟨p.r || q.r, p.w || q.w, p.x || q.x⟩

/-- All that is allowed by the one is allowed by the other. -/
def Protection.Allows (q p : Protection) : Prop :=
  (p.r = true → q.r = true) ∧ (p.w = true → q.w = true) ∧ (p.x = true → q.x = true)

/-- The members `prot` and `preload` of the trampolines. -/
structure Attributes (τ : Type) where
  prot : τ → Protection
  preload : τ → Bool

def protectionsLoop (t : Tree τ ι) (attr : Attributes τ) (END : Int) : List Nat → Protection → Protection
  | [], prot => prot
  | n :: ns, prot =>
    let a := t.heap.alloc n
    if a.lb ≥ END then prot
    else match a.T with
      | none => protectionsLoop t attr END ns prot
      | some T => protectionsLoop t attr END ns (prot.or (attr.prot T))

/-- Calculate the protections of a mapping. -/
def calculateProtections (t : Tree τ ι) (attr : Attributes τ) (mapping : Mapping) : Protection :=
  protectionsLoop t attr (mapping.base + mapping.size) (t.from mapping.i) PROT_NONE

def preloadLoop (t : Tree τ ι) (attr : Attributes τ) (END : Int) : List Nat → Bool
  | [] => false
  | n :: ns =>
    let a := t.heap.alloc n
    if a.lb ≥ END then false
    else match a.T with
      | none => preloadLoop t attr END ns
      | some T => if attr.preload T then true else preloadLoop t attr END ns

/-- Calculate the PRELOAD flag of a mapping. -/
def calculatePreload (t : Tree τ ι) (attr : Attributes τ) (mapping : Mapping) : Bool :=
  preloadLoop t attr (mapping.base + mapping.size) (t.from mapping.i)

/-- A mapping with what `saveMapping` sets besides the bounds. It stays when the mapping is shrunk. -/
structure SavedMapping extends Mapping where
  prot : Protection
  preload : Bool

def saveAttributes (t : Tree τ ι) (attr : Attributes τ) (m shrunk : Mapping) : SavedMapping :=
  ⟨shrunk, calculateProtections t attr m, calculatePreload t attr m⟩

/-- The chains of merged mappings, before they are shrunk. -/
def mergeMappings (debug : Bool) (w : Nat) (t : Tree τ ι) (MAPPING_SIZE : Nat) (mappings : List Mapping) :
    Except Fault (List (List Mapping)) := do
  let tree ← mappings.foldlM (fun (tree : Node w Mapping) mapping => do
    let key ← calculateKey debug t MAPPING_SIZE mapping
    tree.merge key mapping) .null
  .ok tree.collectMappings

theorem optimizeMappings_eq (debug : Bool) (w : Nat) (t : Tree τ ι) (MAPPING_SIZE granularity : Nat)
    (mappings : List Mapping) : optimizeMappings debug w t MAPPING_SIZE granularity mappings =
      (mergeMappings debug w t MAPPING_SIZE mappings).map (List.map (shrinkMapping granularity)) := by
  unfold optimizeMappings mergeMappings
  cases mappings.foldlM (fun (tree : Node w Mapping) mapping => do
    let key ← calculateKey debug t MAPPING_SIZE mapping
    tree.merge key mapping) .null <;> rfl

/-- A chain, shrunk. -/
def shrinkChain (t : Tree τ ι) (attr : Attributes τ) (granularity : Nat) (chain : List Mapping) : List SavedMapping :=
  List.zipWith (saveAttributes t attr) chain (shrinkMapping granularity chain)

/-! ### The file -/

/-- The copies that `flattenMapping` makes for a mapping to a buffer at `buf`. -/
def flattenLoop (t : Tree τ ι) (code : Nat → Option (List UInt8)) (buf : Nat) (BASE END : Int) :
    List Nat → List (Write UInt8)
  | [] => []
  | n :: ns =>
    let a := t.heap.alloc n
    if a.lb ≥ END then []
    else match code n with
      | none => flattenLoop t code buf BASE END ns
      | some bytes =>
        let offset := if a.lb < BASE then BASE - a.lb else 0
        let lb := if a.lb < BASE then BASE else a.lb
        let ub := if a.ub > END then END else a.ub
        ⟨buf + (lb - BASE).toNat, (bytes.drop offset.toNat).take (ub - lb).toNat⟩ ::
          flattenLoop t code buf BASE END ns

/-- The size of a mapping and of those that it was merged with. -/
def chainSize : List SavedMapping → Nat
  | [] => 0
  | mapping :: _ => mapping.size

/-- Flatten a mapping into a memory buffer. -/
def flattenMapping (t : Tree τ ι) (code : Nat → Option (List UInt8)) (data : Nat → UInt8) (buf : Nat)
    (chain : List SavedMapping) (fill : UInt8) : Nat → UInt8 :=
  overlay data (⟨buf, List.replicate (chainSize chain) fill⟩ ::
    chain.flatMap fun m => flattenLoop t code buf m.base (m.base + m.size) (t.from m.i))

/-- The file, its size, and the chains that were emitted with their offsets. -/
structure Emission where
  data : Nat → UInt8
  size : Nat
  chains : List (Nat × List SavedMapping)

def emitMapping (t : Tree τ ι) (code : Nat → Option (List UInt8)) (s : Emission) (chain : List SavedMapping) :
    Emission where
  data := flattenMapping t code s.data s.size chain 0xcc
  size := s.size + chainSize chain
  chains := s.chains ++ [(s.size, chain)]

/-- Step (3): Emit all mappings. -/
def emitAllMappings (t : Tree τ ι) (code : Nat → Option (List UInt8)) (data : Nat → UInt8) (size : Nat)
    (chains : List (List SavedMapping)) : Emission :=
  chains.foldl (emitMapping t code) ⟨data, size, []⟩

/-! ### Map entries -/

def pushBounds (lb ub : Int) (granularity : Nat) (bounds : List Bounds) : List Bounds :=
  if lb = INTPTR_MAX ∨ ub = INTPTR_MIN then bounds
  else
    let lb := lb - lb % granularity
    let ub := if ub % granularity ≠ 0 then ub + granularity - ub % granularity else ub
    bounds ++ [⟨lb, ub⟩]

/-- The loop of `getVirtualBounds`. Reserved memory splits a mapping. -/
def virtualLoop (t : Tree τ ι) (code : Nat → Option (List UInt8)) (BASE END : Int) (granularity : Nat) :
    List Nat → Int × Int → List Bounds → List Bounds
  | [], b, bounds => pushBounds b.1 b.2 granularity bounds
  | n :: ns, b, bounds =>
    let a := t.heap.alloc n
    if a.lb ≥ END then pushBounds b.1 b.2 granularity bounds
    else if (code n).isNone then
      virtualLoop t code BASE END granularity ns (INTPTR_MAX, INTPTR_MIN) (pushBounds b.1 b.2 granularity bounds)
    else
      let lb1 := if a.lb < BASE then 0 else a.lb - BASE
      let ub1 := if a.ub > END then END - BASE else a.ub - BASE
      virtualLoop t code BASE END granularity ns (min b.1 lb1, max b.2 ub1) bounds

/-- Get the virtual bounds of a mapping. -/
def getVirtualBounds (t : Tree τ ι) (code : Nat → Option (List UInt8)) (mapping : Mapping) (granularity : Nat) :
    List Bounds :=
  virtualLoop t code mapping.base (mapping.base + mapping.size) granularity (t.from mapping.i)
    (INTPTR_MAX, INTPTR_MIN) []

def E9_TYPE_TRAMPOLINE : Nat := 0x0
def E9_TYPE_RESERVE : Nat := 0x1
def E9_TYPE_REFACTOR : Nat := 0x2

/-- The arguments of `emitLoaderMap` but for the bound. -/
structure MapRequest where
  addr : Int
  len : Nat
  offset : Int
  prot : Protection
  type : Nat
  deriving DecidableEq, Repr

/-- What is asked for at a level, 0 or 1, for a mapping of a chain at `offset_0`. -/
def mappingRequests (t : Tree τ ι) (code : Nat → Option (List UInt8)) (level : Nat) (offset_0 : Nat)
    (m : SavedMapping) : List MapRequest :=
  if m.preload ≠ decide (level = 0) then []
  else (getVirtualBounds t code m.toMapping PAGE_SIZE).map fun b =>
    { addr := m.base + b.lb, len := (b.ub - b.lb).toNat, offset := offset_0 + b.lb, prot := m.prot
      type := if level = 0 then E9_TYPE_RESERVE else E9_TYPE_TRAMPOLINE }

def levelRequests (t : Tree τ ι) (code : Nat → Option (List UInt8)) (level : Nat)
    (chains : List (Nat × List SavedMapping)) : List MapRequest :=
  chains.flatMap fun c => c.2.flatMap (mappingRequests t code level c.1)

def refactorRequest (refactor : Refactor) : MapRequest :=
  ⟨refactor.addr, refactor.size, refactor.patched, ⟨true, false, true⟩, E9_TYPE_REFACTOR⟩

def emitRequest (s : List e9_map_s × Int) (q : MapRequest) : Except LoaderError (List e9_map_s × Int) :=
  (emitLoaderMap q.addr q.len q.offset q.prot.r q.prot.w q.prot.x q.type (some s.2)).map fun r =>
    (s.1 ++ [r.1], r.2.getD s.2)

/-- A refactoring does not count for the upper bound. -/
def emitRefactor (s : List e9_map_s × Int) (q : MapRequest) : Except LoaderError (List e9_map_s × Int) :=
  (emitLoaderMap q.addr q.len q.offset q.prot.r q.prot.w q.prot.x q.type none).map fun r => (s.1 ++ [r.1], s.2)

inductive EmitError where
  | fault (e : Fault)
  | map (e : LoaderError)
  | loader_base (base ub : Int)
  deriving DecidableEq, Repr

/-- Step (4), the entries: those of level 0, where the refactorings come last, and those of level 1. -/
def emitMaps (t : Tree τ ι) (code : Nat → Option (List UInt8)) (option_loader_base : Int)
    (refactors : List Refactor) (chains : List (Nat × List SavedMapping)) :
    Except EmitError (List e9_map_s × List e9_map_s) := do
  let s ← ((levelRequests t code 0 chains).foldlM emitRequest ([], INTPTR_MIN)).mapError .map
  let s ← ((refactors.map refactorRequest).foldlM emitRefactor s).mapError .map
  let r ← ((levelRequests t code 1 chains).foldlM emitRequest ([], s.2)).mapError .map
  if r.2 > option_loader_base then .error (.loader_base option_loader_base r.2)
  else .ok (s.1, r.1)

/-- The file with all mappings, and the entries. -/
structure Image where
  file : Emission
  maps : List e9_map_s × List e9_map_s

/-- What `parseEmit` and `emitElf` do about mappings, behind a file of `size` bytes. -/
def emitImage (debug : Bool) (B : Binary) (attr : Attributes Trampoline) (code : Nat → Option (List UInt8))
    (options : MemOptions) (data : Nat → UInt8) (size : Nat) (refactors : List Refactor) : Except EmitError Image := do
  let mapping_size := mappingSize B.mode options
  let mappings ← (buildMappings B.allocator mapping_size).mapError .fault
  let chains ← (mergeMappings debug options.option_mem_granularity B.allocator mapping_size mappings).mapError .fault
  let file := emitAllMappings B.allocator code data size
    (chains.map (shrinkChain B.allocator attr (granularity B.mode)))
  let maps ← emitMaps B.allocator code B.options.option_loader_base refactors file.chains
  .ok ⟨file, maps⟩

/-! ### Memory -/

/-- A byte of memory and how its page is protected. -/
structure MappedByte where
  byte : UInt8
  prot : Protection
  deriving DecidableEq, Repr

/-- `mmap` of pages of the file, with `MAP_FIXED`. -/
def mmap (file : Nat → UInt8) (memory : Int → Option MappedByte) (c : MmapCall) : Int → Option MappedByte := fun x =>
  if c.addr ≤ x ∧ x < c.addr + c.len then some ⟨file (c.offset + (x - c.addr).toNat), ⟨c.r, c.w, c.x⟩⟩
  else memory x

/-- Step (4) of `e9init`: Map in the trampoline code. A user's `mmap` for level 1 is taken to map as the default does. -/
def loadMaps (file : Nat → UInt8) (elf_base : Int) (maps : List e9_map_s × List e9_map_s)
    (memory : Int → Option MappedByte) : Int → Option MappedByte :=
  (e9load_maps elf_base maps.2).foldl (mmap file) ((e9load_maps elf_base maps.1).foldl (mmap file) memory)

/-- Where an address of the binary is at run time. -/
def runtimeAddress (elf_base x : Int) : Int := (if IS_ABSOLUTE x then 0 else elf_base) + BASE_ADDRESS x

end E9Patch
