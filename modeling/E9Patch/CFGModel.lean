import E9Patch.DisasmModel
import E9Patch.DynamicSymbols
import E9Patch.MatchModel

/-!
The control-flow recovery of `e9cfg.cpp`: jump targets, basic blocks and functions of an array of instructions.
What is known of an instruction beyond its place is asked of the decoder, which is a field of the file. Indices
are numbers here; the source keeps them in 32 bits.
-/

namespace E9Tool
open Bytes
open E9Patch (Elf64_Sym INTPTR_MIN)

def TARGET_DIRECT : UInt8 := 0x01
def TARGET_INDIRECT : UInt8 := 0x02
def TARGET_FUNCTION : UInt8 := 0x04
def TARGET_ENTRY : UInt8 := 0x08
def TARGET_ENDBR : UInt8 := 0x10
def TARGET_CALLED : UInt8 := 0x20

def REGISTER_NONE : Register := 0
def REGISTER_RIP : Register := 73

/-- The mnemonics that the analysis knows. -/
inductive Mnemonic where
  | NOP | MOV | PUSH | LEA | RET | JMP | CALL | ENDBR64
  | JO | JNO | JB | JAE | JE | JNE | JBE | JA | JS | JNS | JP | JNP | JL | JGE | JLE | JG | JRCXZ | JECXZ
  | INT | INT1 | INT3 | INTO | UD0 | UD1 | UD2 | HLT
  | other
  deriving DecidableEq, Repr

/-- An operand. -/
inductive OpInfo where
  | IMM (imm : Int)
  | MEM (mem : MemOp)
  | REG (reg : Register)
  deriving DecidableEq, Repr

/-- The decompressed representation of an instruction, as far as it is read here. -/
structure InstrInfo where
  mnemonic : Mnemonic
  op0 : Option OpInfo
  deriving DecidableEq, Repr

def SHT_PROGBITS : Nat := 1
def SHT_RELA : Nat := 4
def SHT_INIT_ARRAY : Nat := 14
def SHT_FINI_ARRAY : Nat := 15
def SHF_WRITE : Nat := 1
def SHF_EXECINSTR : Nat := 4
def R_X86_64_RELATIVE : Int := 8

/-- A section header. -/
structure Elf64_Shdr where
  sh_type : Nat
  sh_flags : Nat
  sh_addr : Int
  sh_offset : Nat
  sh_size : Nat
  deriving DecidableEq, Repr

/-- A file: symbols and sections are in the order of their names. -/
structure ELF where
  pic : Bool
  ibt : Bool
  data : List UInt8
  dynsyms : List (List UInt8 × Elf64_Sym)
  syms : List (List UInt8 × Elf64_Sym)
  sections : List (List UInt8 × Elf64_Shdr)
  getInstrInfo : Instr → InstrInfo

abbrev Targets := List (Int × UInt8)

/-- Insert target information. -/
def addTarget (target : Int) (kind : UInt8) (targets : Targets) : Targets :=
  OrderedMap.alter (fun old => old.getD 0 ||| kind) targets target

/-- On which side of an address an instruction is. -/
def Instr.side (address : Int) (I : Instr) : Ordering := BinarySearch.side address I.address I.address

/-- Find the instruction corresponding to the address. -/
def findInstr (Is : List Instr) (address : Int) : Option Nat :=
  (BinarySearch.searchList (Instr.side address) Is).index

/-! ### Targets -/

def isJcc : Mnemonic → Bool
  | .JO | .JNO | .JB | .JAE | .JE | .JNE | .JBE | .JA | .JS | .JNS | .JP | .JNP | .JL | .JGE | .JLE | .JG | .JRCXZ
  | .JECXZ => true
  | _ => false

/-- The target of a jump or call, if it is direct. -/
def addBranch (I : Instr) (op0 : Option OpInfo) (call : Bool) (targets : Targets) : Targets :=
  match op0 with
  | some (.IMM imm) =>
    let kind := TARGET_DIRECT ||| if call then TARGET_FUNCTION ||| TARGET_CALLED else 0
    addTarget (signed64 (I.address + I.size + imm)) kind targets
  | _ => targets

/-- The operand of a jump through a table of absolute addresses. -/
def absoluteTable (elf : ELF) : Option OpInfo → Option Int
  | some (.MEM mem) =>
    if !elf.pic ∧ mem.base = REGISTER_NONE ∧ mem.index ≠ REGISTER_NONE ∧ mem.scale = 8 then some mem.disp else none
  | _ => none

/-- What an instruction tells about targets and, at the front of `tables`, about the bases of jump tables. -/
def codeSwitch (elf : ELF) (Is : List Instr) (I : Instr) (tables : List Int) (targets : Targets) :
    List Int × Targets :=
  let info := elf.getInstrInfo I
  let next := I.address + I.size
  match info.mnemonic with
  | .MOV | .PUSH =>
    match info.op0 with
    | some (.IMM imm) =>
      if !elf.pic ∧ (findInstr Is imm).isSome then
        (tables, addTarget imm (TARGET_INDIRECT ||| TARGET_FUNCTION) targets)
      else (tables, targets)
    | _ => (tables, targets)
  | .LEA =>
    match info.op0 with
    | some (.MEM mem) =>
      let target := signed64 (next + mem.disp)
      if mem.base ≠ REGISTER_RIP then (tables, targets)
      else if (findInstr Is target).isSome then
        (tables, addTarget target (TARGET_INDIRECT ||| TARGET_FUNCTION) targets)
      else (target :: tables, targets)
    | _ => (tables, targets)
  | .RET => (tables, addTarget next TARGET_ENTRY targets)
  | .JMP =>
    ((absoluteTable elf info.op0).toList ++ tables, addBranch I info.op0 false (addTarget next TARGET_ENTRY targets))
  | .CALL => (tables, addBranch I info.op0 true targets)
  | .ENDBR64 =>
    if elf.ibt then (tables, addTarget I.address (TARGET_INDIRECT ||| TARGET_ENDBR) targets) else (tables, targets)
  | mnemonic =>
    if isJcc mnemonic then (tables, addBranch I info.op0 false (addTarget next TARGET_DIRECT targets))
    else (tables, targets)

/-- The scan of the code: where the next instruction is if there is no gap, and what is found. -/
structure CodeScan where
  next : Int
  tables : List Int
  targets : Targets

/-- One instruction of the scan. Behind a gap is an entry. -/
def codeStep (elf : ELF) (Is : List Instr) (s : CodeScan) (I : Instr) : CodeScan :=
  let targets := if s.next ≠ I.address then addTarget I.address TARGET_ENTRY s.targets else s.targets
  let r := codeSwitch elf Is I s.tables targets
  ⟨I.address + I.size, r.1, r.2⟩

def codeScan (elf : ELF) (Is : List Instr) : CodeScan := Is.foldl (codeStep elf Is) ⟨INTPTR_MIN, [], []⟩

def addSymbol (targets : Targets) (entry : List UInt8 × Elf64_Sym) : Targets :=
  if entry.2.isFunction then addTarget entry.2.st_value (TARGET_INDIRECT ||| TARGET_FUNCTION) targets else targets

/-- Code analysis pass: find all probable code targets, and the bases of jump tables. -/
def CFGCodeAnalysis (elf : ELF) (Is : List Instr) : List Int × Targets :=
  ((codeScan elf Is).tables, (elf.dynsyms ++ elf.syms).foldl addSymbol (codeScan elf Is).targets)

def int64At (data : List UInt8) (i : Nat) : Int := signed64 (uword32 data i + 2 ^ 32 * uword32 data (i + 4))

/-- A word of a section of absolute addresses. `call` tells that the word is not in a jump table. -/
def dataWord (elf : ELF) (Is : List Instr) (shdr : Elf64_Shdr) (tables : List Int) (s : Bool × Targets) (p : Nat) :
    Bool × Targets :=
  let call := s.1 && !decide (shdr.sh_addr + ((p : Int) - shdr.sh_offset) ∈ tables)
  let target := int64At elf.data p
  if target ≠ 0 ∧ (findInstr Is target).isSome then
    (call, addTarget target (TARGET_INDIRECT ||| if call then TARGET_FUNCTION else 0) s.2)
  else (true, s.2)

/-- The entries of a jump table that is relative to its own address: the words from its start on. -/
def jumpTable (elf : ELF) (Is : List Instr) (table : Int) : List Nat → Targets → Targets
  | [], targets => targets
  | q :: qs, targets =>
    let target := table + word32 elf.data q
    if (findInstr Is target).isSome then jumpTable elf Is table qs (addTarget target TARGET_DIRECT targets) else targets

/-- The words of a section that jump tables may start at. -/
def jumpTables (elf : ELF) (Is : List Instr) (shdr : Elf64_Shdr) (tables : List Int) : List Nat → Targets → Targets
  | [], targets => targets
  | p :: ps, targets =>
    let table := shdr.sh_addr + ((p : Int) - shdr.sh_offset)
    jumpTables elf Is shdr tables ps
      (if table ∈ tables then jumpTable elf Is table (p :: ps) targets else targets)

/-- Section analysis pass: find potential code pointers in data. -/
def CFGSectionAnalysis (elf : ELF) (Is : List Instr) (shdr : Elf64_Shdr) (tables : List Int) (targets : Targets) :
    Targets :=
  if shdr.sh_flags &&& SHF_EXECINSTR ≠ 0 ∨ shdr.sh_addr = 0 then targets
  else if !elf.pic then
    if shdr.sh_type = SHT_PROGBITS ∨ shdr.sh_type = SHT_INIT_ARRAY ∨ shdr.sh_type = SHT_FINI_ARRAY then
      ((getBounds 8 shdr.sh_offset (shdr.sh_offset + shdr.sh_size)).foldl (dataWord elf Is shdr tables)
        (true, targets)).2
    else targets
  else if shdr.sh_type = SHT_PROGBITS ∧ shdr.sh_flags &&& SHF_WRITE = 0 then
    jumpTables elf Is shdr tables (getBounds 4 shdr.sh_offset (shdr.sh_offset + shdr.sh_size)) targets
  else targets

/-- A relocation entry: the type is the low half of the second word, the addend the third. -/
def addRelocation (elf : ELF) (targets : Targets) (rela : Nat) : Targets :=
  if uword32 elf.data (rela + 8) = R_X86_64_RELATIVE then
    addTarget (int64At elf.data (rela + 16)) (TARGET_INDIRECT ||| TARGET_FUNCTION) targets
  else targets

/-- The relocations of a section. -/
def addRelocations (elf : ELF) (targets : Targets) (shdr : Elf64_Shdr) : Targets :=
  if shdr.sh_type = SHT_RELA then
    ((List.range (shdr.sh_size / 24)).map fun n => shdr.sh_offset + 24 * n).foldl (addRelocation elf) targets
  else targets

/-- Data analysis pass: find potential code pointers in data. -/
def CFGDataAnalysis (elf : ELF) (Is : List Instr) (tables : List Int) (targets : Targets) : Targets :=
  let shdrs := elf.sections.map Prod.snd
  shdrs.foldl (fun targets shdr => CFGSectionAnalysis elf Is shdr tables targets)
    (shdrs.foldl (addRelocations elf) targets)

/-- The targets as the first two passes leave them. -/
def roughTargets (elf : ELF) (Is : List Instr) : Targets :=
  let r := CFGCodeAnalysis elf Is
  CFGDataAnalysis elf Is r.1 r.2

/-- Skip any NOPs: the index of another instruction behind them, if there is one before the end of the array. The
index is signed, and `SIZE_MAX`, which a gap sets it to, is the one before the first. -/
def skipNOPs (elf : ELF) (Is : List Instr) : Nat → Nat → Option (Option Nat)
  | 0, _ => none
  | fuel + 1, i =>
    match Is[i]? with
    | none => some none
    | some I =>
      if (elf.getInstrInfo I).mnemonic ≠ .NOP then some (some i)
      else if Is[i + 1]?.any fun J => J.address ≠ I.address + I.size then skipNOPs elf Is fuel 0
      else skipNOPs elf Is fuel (i + 1)

/-- One target of the third pass. -/
def cleanUp (elf : ELF) (Is : List Instr) (fuel : Nat) (new_targets : Targets) (entry : Int × UInt8) :
    Option Targets :=
  match findInstr Is entry.1 with
  | none => some new_targets
  | some i =>
    (skipNOPs elf Is fuel i).map fun
      | none => new_targets
      | some i => addTarget ((Is[i]?.map Instr.address).getD 0) entry.2 new_targets

/-- The normal form of a kind. -/
def normalize (elf : ELF) (kind : UInt8) : UInt8 :=
  let kind := if kind &&& TARGET_ENTRY ≠ 0 ∧ kind &&& TARGET_DIRECT = 0 then kind ||| TARGET_INDIRECT else kind
  let kind := if elf.ibt ∧ kind &&& TARGET_ENDBR = 0 then kind &&& ~~~TARGET_INDIRECT else kind
  kind &&& (TARGET_DIRECT ||| TARGET_INDIRECT ||| TARGET_FUNCTION)

/-- Build the set of potential jump targets. The loops over NOPs may take `fuel` rounds each. -/
def buildTargets (elf : ELF) (Is : List Instr) (fuel : Nat) : Option Targets :=
  let targets := roughTargets elf Is
  (targets.foldlM (cleanUp elf Is fuel) []).map fun new_targets =>
    let targets := targets.map fun entry => (entry.1, normalize elf entry.2)
    -- the two maps are swapped, so what was normalised is dropped
    (new_targets, targets).1

/-! ### Basic blocks -/

/-- A basic block: the entry, the exit, and the best instruction to instrument, by their indices. -/
structure BB where
  lb : Nat
  ub : Nat
  best : Nat
  deriving DecidableEq, Repr

/-- The instructions that end a basic block. -/
def isCFT : Mnemonic → Bool
  | .RET | .JMP | .JO | .JNO | .JB | .JAE | .JE | .JNE | .JBE | .JA | .JS | .JNS | .JP | .JNP | .JL | .JGE | .JLE
  | .JG | .INT | .INT1 | .INT3 | .INTO | .UD0 | .UD1 | .UD2 | .HLT => true
  | _ => false

def sizeAt (Is : List Instr) (i : Nat) : Nat := (Is[i]?.map Instr.size).getD 0

/-- The best of the instructions up to `ub`; an instruction of five bytes is good enough. -/
def better (Is : List Instr) (best ub : Nat) : Nat :=
  if sizeAt Is best < 5 ∧ sizeAt Is ub > sizeAt Is best then ub else best

/-- The loop that extends a block behind `I`, the instruction at `ub`. -/
def extendBB (elf : ELF) (Is : List Instr) (targets : Targets) : Instr → Nat → Nat → List Instr → Nat × Nat
  | _, ub, best, [] => (ub, best)
  | I, ub, best, J :: rest =>
    if isCFT (elf.getInstrInfo I).mnemonic then (ub, best)
    else if I.address + I.size ≠ J.address then (ub, best)
    else if (OrderedMap.find targets J.address).isSome then (ub, best)
    else extendBB elf Is targets J (ub + 1) (better Is best (ub + 1)) rest

/-- The block of a target, if there is an instruction. -/
def makeBB (elf : ELF) (Is : List Instr) (targets : Targets) (target : Int) : Option BB :=
  match findInstr Is target with
  | none => none
  | some i =>
    match Is.drop i with
    | [] => none
    | I :: rest =>
      let r := extendBB elf Is targets I i i rest
      some ⟨i, r.1, r.2⟩

/-- Build the set of basic blocks. -/
def buildBBs (elf : ELF) (Is : List Instr) (targets : Targets) : List BB :=
  (OrderedMap.collect BB.lb (fun entry => makeBB elf Is targets entry.1) targets).map Prod.snd

def BB.side (idx : Nat) (bb : BB) : Ordering := BinarySearch.side idx bb.lb bb.ub

/-- Find a basic block based on an instruction index. -/
def findBB (bbs : List BB) (idx : Nat) : Option BB :=
  (BinarySearch.searchList (BB.side idx) bbs).index.bind fun mid => bbs[mid]?

/-! ### Functions -/

/-- A function: its name if it has one, and its instructions as of a block. -/
structure F where
  name : Option (List UInt8)
  lb : Nat
  ub : Nat
  best : Nat
  deriving DecidableEq, Repr

/-- The names of the functions at their addresses; dynamic symbols come first. -/
def functionNames (elf : ELF) : List (Int × List UInt8) :=
  (elf.dynsyms ++ elf.syms).foldl (fun names entry =>
    if entry.2.isFunction then OrderedMap.insert names entry.2.st_value entry.1 else names) []

/-- There is no function among the symbols other than the dynamic ones. -/
def stripped (elf : ELF) : Bool := !elf.syms.any fun entry => entry.2.isFunction

/-- A target that starts a function. If there are symbols, it has one or is called. -/
def isEntry (elf : ELF) (target : Int) (kind : UInt8) : Bool :=
  kind &&& TARGET_FUNCTION ≠ 0 ∧
    (stripped elf ∨ (OrderedMap.find (functionNames elf) target).isSome ∨ kind &&& TARGET_CALLED ≠ 0)

/-- The loop that extends a function behind `I`, the instruction at `ub`. The best instruction is looked for up
to the end of the first block only. -/
def extendF (elf : ELF) (Is : List Instr) (targets : Targets) : Bool → Instr → Nat → Nat → List Instr → Nat × Nat
  | _, _, ub, best, [] => (ub, best)
  | found, I, ub, best, J :: rest =>
    let found := found || isCFT (elf.getInstrInfo I).mnemonic
    if I.address + I.size ≠ J.address then (ub, best)
    else if (OrderedMap.find targets J.address).any (isEntry elf J.address) then (ub, best)
    else extendF elf Is targets found J (ub + 1) (if found then best else better Is best (ub + 1)) rest

/-- The function of a target, if there is an instruction. -/
def makeF (elf : ELF) (Is : List Instr) (targets : Targets) (target : Int) : Option F :=
  match findInstr Is target with
  | none => none
  | some i =>
    match Is.drop i with
    | [] => none
    | I :: rest =>
      let r := extendF elf Is targets false I i i rest
      some ⟨OrderedMap.find (functionNames elf) I.address, i, r.1, r.2⟩

/-- Build the set of functions. -/
def buildFs (elf : ELF) (Is : List Instr) (targets : Targets) : List F :=
  (OrderedMap.collect F.lb (fun entry =>
    if isEntry elf entry.1 entry.2 then makeF elf Is targets entry.1 else none) targets).map Prod.snd

def F.side (idx : Nat) (f : F) : Ordering := BinarySearch.side idx f.lb f.ub

/-- Find a function based on an instruction index. -/
def findF (fs : List F) (idx : Nat) : Option F :=
  (BinarySearch.searchList (F.side idx) fs).index.bind fun mid => fs[mid]?

end E9Tool
