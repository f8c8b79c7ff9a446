import Mathlib.Data.Nat.Basic
import E9Patch.AnalysisDisasm
import E9Patch.ExchangeSort

/-!
Control flow graphs of the analysis engine (`e9_cfg_build`). What an address decodes to is a parameter. Blocks are
known by their indices. A loop that uses up its fuel gives `none`, and memory is there. Addresses wrap around in
64 bits.
-/

namespace E9Patch

/-- A basic block. -/
structure E9BasicBlock where
  start_addr : Nat
  end_addr : Nat
  insns : List Insn
  predecessors : List Nat
  successors : List Nat
  deriving DecidableEq, Repr

/-- A control flow graph. -/
structure E9CFG where
  blocks : List E9BasicBlock
  entry : Option Nat
  exits : List Nat
  cyclomatic_complexity : Nat
  deriving DecidableEq, Repr

/-- A function: the end is 0 where it is not known. -/
structure E9Function where
  name : Option (List UInt8)
  address : Nat
  end_address : Nat
  size : Nat
  cfg : Option E9CFG
  symbol : Option Symbol
  deriving DecidableEq, Repr

def MAX_BLOCKS : Nat := 1024

/-- `func->end_address`, or 64 KiB behind the start. -/
def E9Function.end_addr (func : E9Function) : Nat :=
  if func.end_address ≠ 0 then func.end_address else addrPlus func.address 0x10000

/-! ### First pass: leaders -/

/-- A leader is added once. -/
def addLeader (leaders : List Nat) (addr : Nat) : List Nat :=
  if leaders.contains addr then leaders else leaders ++ [addr]

/-- The leaders that an instruction of a function from `start` to `end_addr` gives. -/
def insnLeaders (start end_addr : Nat) (insn : Insn) (addr : Nat) (leaders : List Nat) : List Nat :=
  if insn.category = .CALL ∨ insn.category = .JUMP ∨ insn.category = .COND_JUMP then
    let leaders :=
      if insn.target_is_indirect = false ∧ insn.target ≥ start ∧ insn.target < end_addr then addLeader leaders insn.target
      else leaders
    if insn.category ≠ .JUMP ∧ addrPlus addr insn.size < end_addr then addLeader leaders (addrPlus addr insn.size)
    else leaders
  else leaders

variable (disasm : Nat → Option Insn)

def findLeaders (start end_addr : Nat) : Nat → Nat → List Nat → Option (List Nat)
  | 0, _, _ => none
  | fuel + 1, addr, leaders =>
    if addr < end_addr ∧ leaders.length < MAX_BLOCKS - 2 then
      match disasm addr with
      | none => some leaders
      | some insn =>
        if insn.category = .RET then some (insnLeaders start end_addr insn addr leaders)
        else findLeaders start end_addr fuel (addrPlus addr insn.size) (insnLeaders start end_addr insn addr leaders)
    else some leaders

/-! ### Second pass: blocks -/

/-- The instructions from `addr` on, and the end of the block. -/
def blockInsns (end_addr : Nat) : Nat → Nat → Option (List Insn × Nat)
  | 0, _ => none
  | fuel + 1, addr =>
    if addr < end_addr then
      match disasm addr with
      | none => some ([], end_addr)
      | some insn =>
        if insn.category = .RET ∨ insn.category = .JUMP then some ([insn], addrPlus addr insn.size)
        else if insn.category = .COND_JUMP ∧ addrPlus addr insn.size ≥ end_addr then some ([insn], end_addr)
        else (blockInsns end_addr fuel (addrPlus addr insn.size)).map fun r => (insn :: r.1, r.2)
    else some ([], end_addr)

/-- A block for each of the leaders, up to the next one. -/
def buildBlocks (fuel end_addr : Nat) : List Nat → Option (List E9BasicBlock)
  | [] => some []
  | start :: leaders => do
    let (insns, fin) ← blockInsns disasm (leaders.headD end_addr) fuel start
    let blocks ← buildBlocks fuel end_addr leaders
    some (⟨start, fin, insns, [], []⟩ :: blocks)

/-! ### Third pass: edges -/

/-- The block that starts at the target of an instruction. -/
def targetBlock (blocks : List E9BasicBlock) (insn : Insn) : List Nat :=
  (blocks.findIdx? fun block => block.start_addr = insn.target).toList

/-- The block behind block `i`. -/
def nextBlock (blocks : List E9BasicBlock) (i : Nat) : List Nat := if i + 1 < blocks.length then [i + 1] else []

/-- The successors that block `i` gets; no start and no instruction changes in this pass. -/
def blockEdges (blocks : List E9BasicBlock) (i : Nat) (block : E9BasicBlock) : List Nat :=
  match block.insns.getLast? with
  | none => []
  | some last =>
    if last.category = .RET then []
    else if last.category = .JUMP ∧ last.target_is_indirect = false then targetBlock blocks last
    else if last.category = .COND_JUMP then
      nextBlock blocks i ++ if last.target_is_indirect = false then targetBlock blocks last else []
    else if last.category = .CALL ∨ last.category = .OTHER then nextBlock blocks i
    else []

/-- An edge from block `i` to block `j`. -/
def addEdge (i : Nat) (blocks : List E9BasicBlock) (j : Nat) : List E9BasicBlock :=
  (blocks.modify i fun block => { block with successors := block.successors ++ [j] }).modify j
    fun block => { block with predecessors := block.predecessors ++ [i] }

/-- The edges of all blocks, from block `i` on. -/
def connectFrom (all : List E9BasicBlock) : Nat → List E9BasicBlock → List E9BasicBlock → List E9BasicBlock
  | _, [], blocks => blocks
  | i, block :: rest, blocks => connectFrom all (i + 1) rest ((blockEdges all i block).foldl (addEdge i) blocks)

def connectBlocks (blocks : List E9BasicBlock) : List E9BasicBlock := connectFrom blocks 0 blocks blocks

/-- The blocks whose last instruction is a return. -/
def exitBlocks (blocks : List E9BasicBlock) : List Nat :=
  (List.range blocks.length).filter fun i =>
    (blocks[i]?.bind fun block => block.insns.getLast?).any fun last => last.category = .RET

/-- The last block at the start of the function. -/
def entryBlock (blocks : List E9BasicBlock) (start : Nat) : Option Nat :=
  (List.range blocks.length).reverse.find? fun i => (blocks[i]?.map (·.start_addr)) = some start

def e9_cfg_build (fuel : Nat) (func : E9Function) : Option E9CFG := do
  let leaders ← findLeaders disasm func.address func.end_addr fuel func.address [func.address]
  let blocks ← buildBlocks disasm fuel func.end_addr (ExchangeSort.sort leaders)
  let blocks := connectBlocks blocks
  let edges := (blocks.map fun block => block.successors.length).sum
  some ⟨blocks, entryBlock blocks func.address, exitBlocks blocks, (edges + 2 ^ 32 - blocks.length + 2) % 2 ^ 32⟩

end E9Patch
