import E9Patch.RedBlack
import E9Patch.Bytes

/-!
The virtual address space allocator (`e9alloc.cpp`): a red-black tree of allocations with parent
pointers, augmented with the bounds and the largest gap of each subtree. A node is an address in a
`Heap` that keeps one map per field, a null pointer is `none`, and the mirrored halves of the C code
are one definition with the side as a parameter. Loops over links carry a fuel; `heap.fresh`, the
number of nodes ever made, bounds the length of every path. `intptr_t` is `Int`, and what the code
does modulo `2 ^ 64` (or in the 63 bits of `gap`) is written out.

The differences that the search for a place computes may be too large for `intptr_t`, which C++ leaves
undefined. The search has what becomes of such a result as a parameter: `checked` gives it no value,
`wrapped` the one that the compiled program goes on with.
-/

namespace E9Patch
open PtrTree RedBlack Bytes

def PAGE_SIZE : Nat := 4096
def TRAMPOLINE_MAX : Int := 4096

def RELATIVE_ADDRESS_MAX : Int := 0x1FFFFFFFFFFFF000
def RELATIVE_ADDRESS_MIN : Int := -0x1FFFFFFFFFFFF000
def ABSOLUTE_ADDRESS_MAX : Int := 0x7FFFFFFFFFFFF000
def ABSOLUTE_ADDRESS_MIN : Int := 0x4000000000001000

def IS_RELATIVE (p : Int) : Prop := RELATIVE_ADDRESS_MIN ≤ p ∧ p ≤ RELATIVE_ADDRESS_MAX
def IS_ABSOLUTE (p : Int) : Prop := ABSOLUTE_ADDRESS_MIN ≤ p ∧ p ≤ ABSOLUTE_ADDRESS_MAX

instance (p : Int) : Decidable (IS_RELATIVE p) := inferInstanceAs (Decidable (_ ∧ _))
instance (p : Int) : Decidable (IS_ABSOLUTE p) := inferInstanceAs (Decidable (_ ∧ _))

def INTPTR_MAX : Int := 2 ^ 63 - 1
def INTPTR_MIN : Int := -2 ^ 63

/-- The result of an operation is not a value of its type. -/
inductive Overflow where
  | overflow
  deriving DecidableEq, Repr

/-- An `intptr_t` result as the language defines it. -/
def checked (x : Int) : Except Overflow Int :=
  if INTPTR_MIN ≤ x ∧ x ≤ INTPTR_MAX then .ok x else .error .overflow

/-- An `intptr_t` result as it is in a register. -/
def wrapped (x : Int) : Except Overflow Int := .ok (signed64 x)

/-- The cast `(uint64_t)x`. -/
def toU64 (x : Int) : Nat := (x % 2 ^ 64).toNat

structure Alloc (τ ι : Type) where
  lb : Int
  ub : Int
  I : Option ι
  T : Option τ
  entry : Nat
  deriving DecidableEq, Repr

/-- The fields of all nodes. `fresh` is the next address that `new` gives out. -/
structure Heap (τ ι : Type) extends Store Nat where
  alloc : Nat → Alloc τ ι
  gap : Nat → Nat
  color : Nat → Color
  lb : Nat → Int
  ub : Nat → Int
  fresh : Nat

structure Tree (τ ι : Type) where
  root : Option Nat
  heap : Heap τ ι

variable {τ ι : Type}

namespace Heap

def setChild (h : Heap τ ι) (d : Dir) (n : Nat) (v : Option Nat) : Heap τ ι :=
  { h with toStore := h.toStore.setChild d n v }

def setParent (h : Heap τ ι) (n : Nat) (v : Option Nat) : Heap τ ι :=
  { h with toStore := h.toStore.setParent n v }

def setColor (h : Heap τ ι) (n : Nat) (v : Color) : Heap τ ι := { h with color := paint h.color n v }

/-- `if (q != nullptr) RB_PARENT(q) = v`. -/
def adopt (h : Heap τ ι) (q v : Option Nat) : Heap τ ι :=
  { h with toStore := h.toStore.adopt q v }

/-- The test `n == nullptr || RB_COLOR(n) == RB_BLACK`. -/
def isBlack (h : Heap τ ι) : Option Nat → Bool
  | none => true
  | some n => h.color n = .black

/-- Restore interval-tree invariants of a node after child node modification. -/
def fix (h : Heap τ ι) : Option Nat → Heap τ ι
  | none => h
  | some n =>
    let l := h.child .left n
    let r := h.child .right n
    let llb := match l with | some l => h.lb l | none => INTPTR_MAX
    let rub := match r with | some r => h.ub r | none => INTPTR_MIN
    let lgap := match l with | none => 0 | some l => h.gap l
    let rgap := match r with | none => 0 | some r => h.gap r
    let gap := max lgap rgap
    let gap := max gap (toU64 (match l with | none => 0 | some l => (h.alloc n).lb - h.ub l))
    let gap := max gap (toU64 (match r with | none => 0 | some r => h.lb r - (h.alloc n).ub))
    { h with
      lb := fun z => if z = n then min llb (h.alloc n).lb else h.lb z
      ub := fun z => if z = n then max rub (h.alloc n).ub else h.ub z
      gap := fun z => if z = n then gap % 2 ^ 63 else h.gap z }

/-- `for (Node *m = n; m != nullptr; m = RB_PARENT(m)) fix(m);` -/
def fixUp (h : Heap τ ι) : Nat → Option Nat → Heap τ ι
  | 0, _ => h
  | _, none => h
  | fuel + 1, some m =>
    let h := h.fix (some m)
    h.fixUp fuel (h.parent m)

end Heap

namespace Tree

def fix (t : Tree τ ι) (n : Option Nat) : Tree τ ι := { t with heap := t.heap.fix n }
def setColor (t : Tree τ ι) (n : Nat) (v : Color) : Tree τ ι := { t with heap := t.heap.setColor n v }

/-- `v` takes the place of `n` below `p`, or at the root. -/
def relink (t : Tree τ ι) (p : Option Nat) (n : Nat) (v : Option Nat) : Tree τ ι :=
  match p with
  | some p => { t with heap := { t.heap with toStore := t.heap.toStore.replaceChild p n v } }
  | none => { t with root := v }

/-- Rotation at `n` towards `d`; the callers see to it that the child on the other side is there. -/
def rotate (d : Dir) (t : Tree τ ι) (n : Nat) : Tree τ ι :=
  match t.heap.child d.flip n with
  | none => t
  | some tmp =>
    let b := t.heap.child d tmp
    let t := { t with heap := ((t.heap.setChild d.flip n b).adopt b (some n)).fix (some n) }
    let p := t.heap.parent n
    let t := ({ t with heap := t.heap.setParent tmp p }).relink p n (some tmp)
    let t := { t with heap := ((t.heap.setChild d tmp (some n)).setParent n (some tmp)).fix (some tmp) }
    t.fix (t.heap.parent tmp)

def rotateLeft (t : Tree τ ι) (n : Nat) : Tree τ ι := rotate .left t n
def rotateRight (t : Tree τ ι) (n : Nat) : Tree τ ι := rotate .right t n

/-- The loop body of `rebalanceInsert` for a parent that is the `d` child of the grandparent. -/
def insertSide (d : Dir) (t : Tree τ ι) (n parent gparent : Nat) : Tree τ ι × Nat :=
  let tmp := t.heap.child d.flip gparent
  match tmp with
  | some u =>
    if t.heap.color u = .red then
      (((t.setColor u .black).setColor parent .black).setColor gparent .red, gparent)
    else close
  | none => close
where
  close : Tree τ ι × Nat :=
    let (t, n, parent) :=
      if t.heap.child d.flip parent = some n then (rotate d t parent, parent, n) else (t, n, parent)
    (rotate d.flip ((t.setColor parent .black).setColor gparent .red) gparent, n)

def insertLoop : Nat → Tree τ ι → Nat → Tree τ ι
  | 0, t, _ => t
  | fuel + 1, t, n =>
    match t.heap.parent n with
    | none => t
    | some parent =>
      if t.heap.color parent = .red then
        match t.heap.parent parent with
        | none => t
        | some gparent =>
          let (t, n) := insertSide (if t.heap.child .left gparent = some parent then .left else .right)
            t n parent gparent
          insertLoop fuel t n
      else t

/-- `if (q != nullptr) RB_COLOR(q) = RB_BLACK`. -/
def blacken (t : Tree τ ι) (q : Option Nat) : Tree τ ι :=
  match q with
  | none => t
  | some q => t.setColor q .black

def rebalanceInsert (t : Tree τ ι) (n : Nat) : Tree τ ι :=
  let t := { t with heap := t.heap.fixUp t.heap.fresh (some n) }
  let t := insertLoop t.heap.fresh t n
  t.blacken t.root

/-- The loop body of `rebalanceRemove` below its first `if`, where the sibling `tmp` is black. The
result is the tree, the parent and the node of the next round, and whether the loop is left by
`break`. -/
def removeBlackSide (d : Dir) (t : Tree τ ι) (parent tmp : Nat) :
    Tree τ ι × Option Nat × Option Nat × Bool :=
  if t.heap.isBlack (t.heap.child d tmp) ∧ t.heap.isBlack (t.heap.child d.flip tmp) then
    let t := t.setColor tmp .red
    (t, t.heap.parent parent, some parent, false)
  else
    let (t, tmp) :=
      if t.heap.isBlack (t.heap.child d.flip tmp) then
        let t := t.blacken (t.heap.child d tmp)
        let t := rotate d.flip (t.setColor tmp .red) tmp
        (t, t.heap.child d.flip parent)
      else (t, some tmp)
    match tmp with
    | none => (t, some parent, none, true)
    | some tmp =>
      let t := (t.setColor tmp (t.heap.color parent)).setColor parent .black
      let t := t.blacken (t.heap.child d.flip tmp)
      let t := rotate d t parent
      (t, some parent, t.root, true)

/-- The loop body of `rebalanceRemove` for a node that is the `d` child of `parent`, with sibling
`tmp`. -/
def removeSide (d : Dir) (t : Tree τ ι) (parent tmp : Nat) :
    Tree τ ι × Option Nat × Option Nat × Bool :=
  if t.heap.color tmp = .red then
    let t := rotate d ((t.setColor tmp .black).setColor parent .red) parent
    match t.heap.child d.flip parent with
    | none => (t, some parent, none, true)
    | some tmp => removeBlackSide d t parent tmp
  else removeBlackSide d t parent tmp

def removeLoop : Nat → Tree τ ι → Option Nat → Option Nat → Tree τ ι × Option Nat
  | 0, t, _, n => (t, n)
  | fuel + 1, t, parent, n =>
    if t.heap.isBlack n ∧ n ≠ t.root then
      match parent with
      | none => (t, n)
      | some p =>
        let d : Dir := if t.heap.child .left p = n then .left else .right
        match t.heap.child d.flip p with
        | none => (t, n)
        | some tmp =>
          let r := removeSide d t p tmp
          if r.2.2.2 then (r.1, r.2.2.1) else removeLoop fuel r.1 r.2.1 r.2.2.1
    else (t, n)

def rebalanceRemove (t : Tree τ ι) (parent n : Option Nat) : Tree τ ι :=
  let r := removeLoop (t.heap.fresh + 2) t parent n
  r.1.blacken r.2

/-- `while ((left = RB_LEFT(n)) != nullptr) n = left;` -/
def leftmost (h : Heap τ ι) : Nat → Nat → Nat
  | 0, n => n
  | fuel + 1, n =>
    match h.child .left n with
    | none => n
    | some left => leftmost h fuel left

/-- The part of `remove` for a node with two children: the successor takes its place. -/
def removeInner (t : Tree τ ι) (old right : Nat) : Tree τ ι :=
  let n := leftmost t.heap t.heap.fresh right
  let child := t.heap.child .right n
  let parent := t.heap.parent n
  let color := t.heap.color n
  let t := { t with heap := t.heap.adopt child parent }
  let t := (t.relink parent n child).fix parent
  let parent := if t.heap.parent n = some old then some n else parent
  let h := t.heap.setParent n (t.heap.parent old)
  let h := h.setChild .left n (h.child .left old)
  let h := h.setChild .right n (h.child .right old)
  let t := { t with heap := h.setColor n (h.color old) }
  let p := t.heap.parent old
  let t := (t.relink p old (some n)).fix p
  let h := t.heap.adopt (t.heap.child .left old) (some n)
  let h := h.adopt (h.child .right old) (some n)
  let t := { t with heap := h.fixUp h.fresh parent }
  if color = .black then t.rebalanceRemove parent child else t

/-- The part of `remove` for a node with at most one child, which takes its place. -/
def removeOuter (t : Tree τ ι) (n : Nat) (child : Option Nat) : Tree τ ι :=
  let parent := t.heap.parent n
  let color := t.heap.color n
  let t := { t with heap := t.heap.adopt child parent }
  let t := t.relink parent n child
  let t := { t with heap := t.heap.fixUp t.heap.fresh parent }
  if color = .black then t.rebalanceRemove parent child else t

def remove (t : Tree τ ι) (n : Nat) : Tree τ ι :=
  match t.heap.child .left n, t.heap.child .right n with
  | none, child => t.removeOuter n child
  | child, none => t.removeOuter n child
  | some _, some right => t.removeInner n right

end Tree

/-! ### Insertion of an interval -/

/-- `if (n == nullptr) n = m`. -/
def orNull {α : Type} (n m : Except Overflow (Option α)) : Except Overflow (Option α) :=
  match n with
  | .ok none => m
  | n => n

structure Flags where
  lb : Bool
  ub : Bool
  right : Bool
  same_page : Bool
  deriving DecidableEq, Repr

/-- The bounds `LB` and `UB` that `node` settles on, if there are any. -/
def nodeBounds (lb ub : Int) (size : Nat) (flags : Flags) : Option (Int × Int) :=
  let alloc_left := if flags.right then false else flags.lb || !flags.ub
  let LB := if alloc_left then lb else signed64 (ub - size)
  let UB := if alloc_left then signed64 (lb + size) else ub
  let spans_pages := toU64 LB / PAGE_SIZE ≠ toU64 (UB - 1) / PAGE_SIZE
  if flags.same_page ∧ spans_pages then
    let offset := if alloc_left then PAGE_SIZE - lb % PAGE_SIZE else -(ub % PAGE_SIZE)
    -- the assertion that the moved interval is within a page is not needed for what follows
    if LB + offset < lb ∨ UB + offset > ub then none else some (LB + offset, UB + offset)
  else some (LB, UB)

namespace Heap

/-- Allocate and initialize a new interval tree node. -/
def node (h : Heap τ ι) (parent : Option Nat) (lb ub : Int) (size : Nat) (flags : Flags) :
    Option (Heap τ ι × Nat) :=
  match nodeBounds lb ub size flags with
  | none => none
  | some (LB, UB) =>
    let n := h.fresh
    some ({ h with
      child := fun d z => if z = n then none else h.child d z
      parent := fun z => if z = n then parent else h.parent z
      alloc := fun z => if z = n then ⟨LB, UB, none, none, 0⟩ else h.alloc z
      gap := fun z => if z = n then 0 else h.gap z
      color := paint h.color n .red
      lb := fun z => if z = n then LB else h.lb z
      ub := fun z => if z = n then UB else h.ub z
      fresh := n + 1 }, n)

mutual

def insertLeftChild (arith : Int → Except Overflow Int) (h : Heap τ ι) :
    Nat → Nat → Int → Int → Nat → Flags → Except Overflow (Option (Heap τ ι × Nat))
  | 0, _, _, _, _, _ => .ok none
  | fuel + 1, root, lb, ub, size, flags => do
    let ub := min ub (h.alloc root).lb
    let room ← arith (ub - lb)
    if (size : Int) > room then .ok none
    else do
      let away ← arith ((h.alloc root).lb - ub)
      let flags := { flags with ub := decide (away < PAGE_SIZE) }
      match h.child .left root with
      | none => .ok ((h.node (some root) lb ub size flags).map
          (fun (h, n) => (h.setChild .left root (some n), n)))
      | some l => insert arith h fuel (some l) lb ub size flags
termination_by structural fuel => fuel

def insertRightChild (arith : Int → Except Overflow Int) (h : Heap τ ι) :
    Nat → Nat → Int → Int → Nat → Flags → Except Overflow (Option (Heap τ ι × Nat))
  | 0, _, _, _, _, _ => .ok none
  | fuel + 1, root, lb, ub, size, flags => do
    let lb := max lb (h.alloc root).ub
    let room ← arith (ub - lb)
    if (size : Int) > room then .ok none
    else do
      let away ← arith (lb - (h.alloc root).ub)
      let flags := { flags with lb := decide (away < PAGE_SIZE) }
      match h.child .right root with
      | none => .ok ((h.node (some root) lb ub size flags).map
          (fun (h, n) => (h.setChild .right root (some n), n)))
      | some r => insert arith h fuel (some r) lb ub size flags
termination_by structural fuel => fuel

/-- Insert a new allocation or reservation into the interval tree node `root`. -/
def insert (arith : Int → Except Overflow Int) (h : Heap τ ι) :
    Nat → Option Nat → Int → Int → Nat → Flags → Except Overflow (Option (Heap τ ι × Nat))
  | 0, _, _, _, _, _ => .ok none
  | fuel + 1, root, lb, ub, size, flags => do
    let room ← arith (ub - lb)
    if (size : Int) > room then .ok none
    else match root with
      | none => .ok (h.node none lb ub size flags)
      | some root =>
        let rlb := max lb (h.lb root)
        let rub := min ub (h.ub root)
        let n := if size ≤ h.gap root then
            orNull (insertRightChild arith h fuel root rlb rub size flags)
              (insertLeftChild arith h fuel root rlb rub size flags)
          else .ok none
        let n := orNull n (if ub > h.ub root then
          insertRightChild arith h fuel root (max lb (h.ub root)) ub size flags else .ok none)
        orNull n (if lb < h.lb root then
          insertLeftChild arith h fuel root lb (min ub (h.lb root)) size flags else .ok none)
termination_by structural fuel => fuel

end

end Heap

/-- Verify bounds. -/
def verify (lb ub : Int) : Bool :=
  if lb > ub then false
  else if IS_RELATIVE lb then IS_RELATIVE ub
  else if IS_ABSOLUTE lb then IS_ABSOLUTE ub
  else false

namespace Tree

/-- The node that `insert` made becomes the root of an empty tree, and the tree is rebalanced. -/
def grow (t : Tree τ ι) (h : Heap τ ι) (n : Nat) : Tree τ ι :=
  rebalanceInsert { root := t.root.or (some n), heap := h } n

def setAlloc (t : Tree τ ι) (n : Nat) (T : Option τ) (I : Option ι) (entry : Nat) : Tree τ ι :=
  { t with heap := { t.heap with
      alloc := fun z => if z = n then { t.heap.alloc n with T := T, I := I, entry := entry }
        else t.heap.alloc z } }

/-- Allocates a chunk of virtual address space within the range `[lb..ub]`, for a trampoline of
`tmpsize` bytes behind a prologue of `presize` bytes. -/
def allocate (arith : Int → Except Overflow Int) (option_Oorder : Bool) (t : Tree τ ι) (lb ub : Int)
    (presize : Nat) (tmpsize : Int) (T : Option τ) (I : Option ι) (same_page : Bool) :
    Except Overflow (Option (Tree τ ι × Nat)) :=
  if ¬verify lb (ub + TRAMPOLINE_MAX) then .ok none
  else if tmpsize < 0 then .ok none
  else do
    let lb ← arith (lb - presize)
    let ub ← arith (ub + tmpsize)
    let size := presize + tmpsize.toNat
    let flags : Flags := ⟨false, false, false, same_page⟩
    let target : Int := 0x70C00000
    let n := if option_Oorder ∧ ub > target then
      t.heap.insert arith (2 * t.heap.fresh + 1) t.root lb target size { flags with right := true }
      else .ok none
    match ← orNull n (t.heap.insert arith (2 * t.heap.fresh + 1) t.root lb ub size flags) with
    | none => .ok none
    | some (h, n) => .ok (some ((t.grow h n).setAlloc n T I presize, n))

/-- The part of `reserve` after the range is widened to whole pages. -/
def reservePages (arith : Int → Except Overflow Int) (t : Tree τ ι) (lb ub : Int) :
    Except Overflow (Option (Tree τ ι × Nat)) := do
  let size ← arith (ub - lb)
  if size ≤ 0 then .ok none
  else do
    let flags : Flags := ⟨false, false, false, false⟩
    match ← t.heap.insert arith (2 * t.heap.fresh + 1) t.root lb ub size.toNat flags with
    | none => .ok none
    | some (h, n) => .ok (some ((t.grow h n).setAlloc n none none (h.alloc n).entry, n))

/-- Reserves a chunk of the virtual address space spanning the range `[lb..ub]`. -/
def reserve (arith : Int → Except Overflow Int) (t : Tree τ ι) (lb ub : Int) :
    Except Overflow (Option (Tree τ ι × Nat)) :=
  if ¬verify lb ub then .ok none
  else t.reservePages arith (lb - lb % PAGE_SIZE)
    (ub + (if ub % PAGE_SIZE = 0 then 0 else PAGE_SIZE - ub % PAGE_SIZE))

def deallocate (t : Tree τ ι) (a : Option Nat) : Tree τ ι :=
  match a with
  | none => t
  | some n => t.remove n

/-! ### Iterators -/

/-- The loop of `next` that leaves a right subtree. -/
def nextUp (h : Heap τ ι) : Nat → Nat → Option Nat
  | 0, _ => none
  | fuel + 1, n =>
    match h.parent n with
    | none => none
    | some parent => if h.child .left parent = some n then some parent else nextUp h fuel parent

def next (t : Tree τ ι) (n : Nat) : Option Nat :=
  match t.heap.child .right n with
  | some r => some (leftmost t.heap t.heap.fresh r)
  | none => nextUp t.heap (t.heap.fresh + 1) n

/-- `begin()`. -/
def first (t : Tree τ ι) : Option Nat :=
  match t.root with
  | none => none
  | some n => some (leftmost t.heap t.heap.fresh n)

/-- The nodes that `for (auto *A: allocator)` visits. -/
def visit (t : Tree τ ι) : Nat → Option Nat → List Nat
  | 0, _ => []
  | _, none => []
  | fuel + 1, some n => n :: t.visit fuel (t.next n)

def findFrom (h : Heap τ ι) (addr : Int) : Nat → Option Nat → Option Nat
  | 0, _ => none
  | _, none => none
  | fuel + 1, some n =>
    if addr < (h.alloc n).lb then findFrom h addr fuel (h.child .left n)
    else if addr ≥ (h.alloc n).ub then findFrom h addr fuel (h.child .right n)
    else some n

def find (t : Tree τ ι) (addr : Int) : Option Nat :=
  findFrom t.heap addr (t.heap.fresh + 1) t.root

/-- The tree of an allocator as constructed. -/
def empty : Tree τ ι where
  root := none
  heap :=
    { child := fun _ _ => none, parent := fun _ => none, alloc := fun _ => ⟨0, 0, none, none, 0⟩,
      gap := fun _ => 0, color := fun _ => .black, lb := fun _ => 0, ub := fun _ => 0, fresh := 0 }

end Tree

end E9Patch
