import E9Patch.AllocModel
import E9Patch.BinaryModel

/-!
Physical page grouping (`e9mapping.cpp`): the mappings of an allocator, their occupancy keys, and the radix
tree by which mappings that do not overlap are merged. A null pointer to a node is a constructor of its own; a
pointer into the tree is the path to the node. The list of the mappings of a leaf (`next`) is a list, and a
mapping with what it was merged with (`merged`) is one as well. The sums of `buildMappings` are those of
`intptr_t`. What is computed from the mappings that it returns does not overflow (`buildMappings_fits`), and is
computed in unbounded integers. `debug` says that the build keeps its assertions, which `make release` does not.
-/

namespace E9Patch
open Bytes

variable {τ ι α : Type} {w : Nat}

/-! ### Mappings -/

/-- Representation of a mapping. -/
structure Mapping where
  lb : Int
  ub : Int
  base : Int
  size : Nat
  i : Nat
  deriving DecidableEq, Repr

/-- The allocations from an iterator to the end. -/
def Tree.from (t : Tree τ ι) (i : Nat) : List Nat := t.visit (t.heap.fresh + 1) (some i)

/-- The loop of `calculateBounds`. -/
def boundsLoop (t : Tree τ ι) (BASE END : Int) : List Nat → Int × Int → Int × Int
  | [], b => b
  | n :: ns, b =>
    let a := t.heap.alloc n
    if a.lb ≥ END then b
    else if a.T.isNone then boundsLoop t BASE END ns b
    else
      let lb1 := if a.lb < BASE then 0 else a.lb - BASE
      let ub1 := if a.ub > END then END - BASE else a.ub - BASE
      boundsLoop t BASE END ns (min b.1 lb1, max b.2 ub1)

/-- Calculate the occupancy bounds of a mapping. -/
def calculateBounds (t : Tree τ ι) (mapping : Mapping) : Int × Int :=
  boundsLoop t mapping.base (mapping.base + mapping.size) (t.from mapping.i) (INTPTR_MAX, INTPTR_MIN)

/-- Allocate a new mapping. -/
def allocMapping (i size : Nat) (base : Int) : Mapping := ⟨0, size, base, size, i⟩

/-- Save a mapping into the set. -/
def saveMapping (t : Tree τ ι) (mapping : Option Mapping) (mappings : List Mapping) : List Mapping :=
  match mapping with
  | none => mappings
  | some m =>
    let b := calculateBounds t m
    mappings ++ [{ m with lb := b.1, ub := b.2 }]

/-- The variables of `buildMappings`. -/
structure Building where
  base : Int
  mapping : Option Mapping
  mappings : List Mapping

/-- The old mapping is saved, and a new one allocated. -/
def startMapping (t : Tree τ ι) (MAPPING_SIZE i : Nat) (s : Building) (base : Int) : Building :=
  ⟨base, some (allocMapping i MAPPING_SIZE base), saveMapping t s.mapping s.mappings⟩

/-- `base + (intptr_t)MAPPING_SIZE`. -/
def nextBase (MAPPING_SIZE : Nat) (s : Building) : Except Fault Int :=
  defined (checked (s.base + signed64 MAPPING_SIZE))

/-- The mappings that an allocation reaches into. -/
def spanMappings (t : Tree τ ι) (MAPPING_SIZE i : Nat) : Nat → Building → Except Fault Building
  | 0, s => .ok s
  | fuel + 1, s => do
    let base ← nextBase MAPPING_SIZE s
    if base < (t.heap.alloc i).ub then
      spanMappings t MAPPING_SIZE i fuel (startMapping t MAPPING_SIZE i s base)
    else .ok s

/-- One round of `buildMappings`. -/
def buildStep (t : Tree τ ι) (MAPPING_SIZE : Nat) (s : Building) (i : Nat) : Except Fault Building :=
  let a := t.heap.alloc i
  if a.T.isNone then .ok s
  else do
    let base ← nextBase MAPPING_SIZE s
    let s := if a.lb ≥ base then startMapping t MAPPING_SIZE i s (a.lb - a.lb % MAPPING_SIZE) else s
    -- the loop ends after as many rounds, or with an overflow
    spanMappings t MAPPING_SIZE i ((a.ub - s.base).toNat + 1) s

/-- Build the initial set of (unmerged) mappings. -/
def buildMappings (t : Tree τ ι) (MAPPING_SIZE : Nat) : Except Fault (List Mapping) := do
  let s ← (t.visit (t.heap.fresh + 1) t.first).foldlM (buildStep t MAPPING_SIZE) ⟨INTPTR_MIN, none, []⟩
  .ok (saveMapping t s.mapping s.mappings)

/-! ### Occupancy -/

/-- `assert(p)`, in a build that keeps its assertions. -/
def assertIn (debug : Bool) (p : Prop) [Decidable p] : Except Fault Unit := if debug then assert p else .ok ()

/-- A key of `w` bits can be shifted by `n`. `Key128` is a type of the language, which defines shifts by less than its
width only, and `Key4096` is a `std::bitset`, of which any shift is defined. -/
def shiftable (w n : Nat) : Except Fault Unit := if w = 128 ∧ ¬n < w then .error .overflow else .ok ()

/-- The loop of `calculateKey`. -/
def keyLoop (debug : Bool) (t : Tree τ ι) (BASE END : Int) (UNIT_SIZE : Nat) :
    List Nat → BitVec w → Except Fault (BitVec w)
  | [], key => .ok key
  | n :: ns, key => do
    let a := t.heap.alloc n
    assertIn debug (a.lb ≥ BASE)
    if a.lb ≥ END then .ok key
    else if a.T.isNone then keyLoop debug t BASE END UNIT_SIZE ns key
    else do
      let prologue := (a.lb - BASE).toNat / UNIT_SIZE
      let postscript := (if a.ub ≥ END then 0 else (END - a.ub).toNat) / UNIT_SIZE
      assertIn debug (prologue < w)
      assertIn debug (postscript < w)
      shiftable w prologue
      shiftable w postscript
      let tmp := (BitVec.allOnes w <<< prologue) &&& (BitVec.allOnes w >>> postscript)
      keyLoop debug t BASE END UNIT_SIZE ns (key ||| tmp)

/-- Calculate the occupancy key of a mapping. -/
def calculateKey (debug : Bool) (t : Tree τ ι) (MAPPING_SIZE : Nat) (mapping : Mapping) : Except Fault (BitVec w) :=
  let UNIT_SIZE := MAPPING_SIZE / w
  let BASE := mapping.base
  let END := BASE + MAPPING_SIZE
  let a := t.heap.alloc mapping.i
  if a.lb < BASE then
    if a.ub ≥ END then .ok (BitVec.allOnes w)
    else
      let overlap := ((MAPPING_SIZE - (END - a.ub)).toNat + UNIT_SIZE - 1) / UNIT_SIZE
      if overlap ≥ w then .ok (BitVec.allOnes w)
      else keyLoop debug t BASE END UNIT_SIZE (t.from mapping.i).tail (~~~(BitVec.allOnes w <<< overlap))
  else keyLoop debug t BASE END UNIT_SIZE (t.from mapping.i) 0

/-! ### Radix tree -/

def BRANCH_BITS : Nat := 2
def BRANCH_MAX : Nat := 4

/-- Trailing zero count. -/
def tzcount (key : BitVec w) : Nat := ((List.range w).find? fun i => key.getLsbD i).getD w

/-- Given a key and the shift of a node, return the child index. -/
def index (shift : Nat) (key : BitVec w) : Fin BRANCH_MAX :=
  let shift := BRANCH_BITS * shift
  let BRANCH_MASK := BitVec.ofNat w (BRANCH_MAX - 1)
  ⟨((key &&& (BRANCH_MASK <<< shift)) >>> shift).toNat % BRANCH_MAX, Nat.mod_lt _ (by decide)⟩

/-- Radix-tree node. A mapping of a leaf comes with those it was merged with. -/
inductive Node (w : Nat) (α : Type) where
  | null
  | leaf (key : BitVec w) (mappings : List (List α))
  | inner (key : BitVec w) (shift : Nat) (child : Fin BRANCH_MAX → Node w α)

namespace Node

def isNull : Node w α → Bool
  | .null => true
  | _ => false

/-- The key of a node that is not null. -/
def key : Node w α → BitVec w
  | .null => 0
  | .leaf key _ => key
  | .inner key _ _ => key

def setChild (child : Fin BRANCH_MAX → Node w α) (idx : Fin BRANCH_MAX) (node : Node w α) :
    Fin BRANCH_MAX → Node w α := fun i => if i = idx then node else child i

/-- Fix the tree invariant after insertion/deletion. -/
def fix (shift : Nat) (child : Fin BRANCH_MAX → Node w α) : Node w α :=
  let key := (List.finRange BRANCH_MAX).foldl
    (fun key i => if (child i).isNull then key else key &&& (child i).key) (BitVec.allOnes w)
  .inner key shift child

/-- Find the leaf node for the given key. -/
def find : Node w α → BitVec w → Option (List (Fin BRANCH_MAX))
  | .null, _ => none
  | .leaf k _, key => if k = key then some [] else none
  | .inner _ shift child, key =>
    let idx := index shift key
    ((child idx).find key).map (idx :: ·)

/-- Find any leaf node matching `(key & leaf->key) == 0`. -/
def findAnyComplement : Node w α → BitVec w → Option (List (Fin BRANCH_MAX))
  | .null, _ => none
  | .leaf k _, key => if k &&& key = 0 then some [] else none
  | .inner _ _ child, key => (List.finRange BRANCH_MAX).findSome? fun i =>
    if (child i).isNull then none
    else if key &&& (child i).key ≠ 0 then none
    else ((child i).findAnyComplement key).map (i :: ·)

/-- The key and the mappings of the leaf at a path. -/
def leafAt : Node w α → List (Fin BRANCH_MAX) → Option (BitVec w × List (List α))
  | .leaf key mappings, [] => some (key, mappings)
  | .inner _ _ child, i :: path => (child i).leafAt path
  | _, _ => none

/-- `node->leaf.mappings = mappings`. -/
def setMappings : Node w α → List (Fin BRANCH_MAX) → List (List α) → Node w α
  | .leaf key _, [], mappings => .leaf key mappings
  | .inner key shift child, i :: path, mappings =>
    .inner key shift (setChild child i ((child i).setMappings path mappings))
  | node, _, _ => node

/-- Insert a new mapping into the tree. -/
def insert : Node w α → BitVec w → List α → Node w α
  | .null, key, mapping => .leaf key [mapping]
  | .leaf k mappings, key, mapping =>
    let diff := k ^^^ key
    if diff = 0 then .leaf k (mapping :: mappings)
    else
      let shift := tzcount diff / BRANCH_BITS
      let child := setChild (fun _ => .null) (index shift k) (.leaf k mappings)
      fix shift (setChild child (index shift key) (.leaf key [mapping]))
  | .inner _ shift child, key, mapping =>
    let idx := index shift key
    fix shift (setChild child idx ((child idx).insert key mapping))

/-- Remove the leaf node matching `key`. -/
def remove : Node w α → BitVec w → Node w α
  | .null, _ => .null
  | .leaf k mappings, key => if k ≠ key then .leaf k mappings else .null
  | .inner k shift child, key =>
    let idx := index shift key
    let c := (child idx).remove key
    let child := setChild child idx c
    if ¬c.isNull then fix shift child
    else
      -- a node with two children or more stays as it is
      match (List.finRange BRANCH_MAX).filter fun i => ¬(child i).isNull with
      | [] => .null
      | [i] => child i
      | _ => .inner k shift child

/-- Merge a mapping with an existing mapping (if possible). -/
def merge (tree : Node w α) (key : BitVec w) (mapping : α) : Except Fault (Node w α) :=
  match tree.find key with
  | some path => do
    let leaf ← deref (tree.leafAt path)
    .ok (tree.setMappings path ([mapping] :: leaf.2))
  | none =>
    match tree.findAnyComplement key with
    | some path => do
      let leaf ← deref (tree.leafAt path)
      let mappingCmp ← deref leaf.2.head?
      let tree := tree.setMappings path leaf.2.tail
      let tree := if leaf.2.tail = [] then tree.remove leaf.1 else tree
      .ok (tree.insert (key ||| leaf.1) (mapping :: mappingCmp))
    | none => .ok (tree.insert key [mapping])

/-- Collect all (optimized) mappings. -/
def collectMappings : Node w α → List (List α)
  | .null => []
  | .leaf _ mappings => mappings
  | .inner _ _ child => (List.finRange BRANCH_MAX).flatMap fun i => (child i).collectMappings

end Node

/-! ### Optimization -/

/-- The bounds of a mapping and those it was merged with. -/
def chainBounds (chain : List Mapping) : Int × Int :=
  chain.foldl (fun b m => (min b.1 m.lb, max b.2 m.ub)) (INTPTR_MAX, INTPTR_MIN)

/-- Shrink a mapping (if possible). -/
def shrinkMapping (granularity : Nat) (chain : List Mapping) : List Mapping :=
  match chain with
  | [] => []
  | mapping0 :: _ =>
    if mapping0.size = granularity then chain
    else
      let b := chainBounds chain
      let lb := b.1 - b.1 % granularity
      let ub := if b.2 % granularity ≠ 0 then b.2 + granularity - (b.2 + granularity) % granularity else b.2
      let size := ub - lb
      if size ≥ mapping0.size then chain
      else chain.map fun m =>
        { m with base := m.base + lb, size := size.toNat, lb := m.lb - lb, ub := m.ub - lb }

/-- Optimize the given set of mappings, with keys of `w` bits. -/
def optimizeMappings (debug : Bool) (w : Nat) (t : Tree τ ι) (MAPPING_SIZE granularity : Nat)
    (mappings : List Mapping) : Except Fault (List (List Mapping)) := do
  let tree ← mappings.foldlM (fun (tree : Node w Mapping) mapping => do
    let key ← calculateKey debug t MAPPING_SIZE mapping
    tree.merge key mapping) .null
  .ok (tree.collectMappings.map (shrinkMapping granularity))

def WINDOWS_VIRTUAL_ALLOC_SIZE : Nat := 0x10000

/-- The options of the mappings, as they are accepted. -/
structure MemOptions where
  option_mem_mapping_size : Nat
  option_mem_granularity : Nat
  size_t : option_mem_mapping_size < 2 ^ 64
  pages : option_mem_mapping_size % PAGE_SIZE = 0
  pow2 : option_mem_mapping_size &&& (option_mem_mapping_size - 1) = 0
  granularity : option_mem_granularity = 128 ∨ option_mem_granularity = 4096

/-- The granularity of the mappings of a file. -/
def granularity (mode : Mode) : Nat :=
  if mode = .PE_EXE ∨ mode = .PE_DLL then WINDOWS_VIRTUAL_ALLOC_SIZE else PAGE_SIZE

def mappingSize (mode : Mode) (options : MemOptions) : Nat := max (granularity mode) options.option_mem_mapping_size

/-- The part of `parseEmit` that creates the mappings and optimizes them. -/
def emitMappings (debug : Bool) (mode : Mode) (options : MemOptions) (t : Tree τ ι) :
    Except Fault (List (List Mapping)) := do
  let mappings ← buildMappings t (mappingSize mode options)
  optimizeMappings debug options.option_mem_granularity t (mappingSize mode options) (granularity mode) mappings

end E9Patch
