import E9Patch.ApiModel

/-!
The target analysis of `e9CFR.cpp`: every position of the executable segments is taken for the start of an
instruction, and what looks like a branch or a call marks its target. Offsets are offsets of the file.
What is found otherwise (the entry point, the dynamic section, code pointers and jump tables) only adds
marks; it is a parameter.
-/

namespace E9Patch
open Bytes

/-- A program header. -/
structure Phdr where
  p_type : Nat
  p_flags : Nat
  p_offset : Nat
  p_vaddr : Int
  p_filesz : Nat
  p_memsz : Nat
  deriving DecidableEq, Repr

def PT_LOAD : Nat := 1
def PT_GNU_RELRO : Nat := 0x6474e552
def PF_X : Nat := 1
def PF_W : Nat := 2
def GNU_PROPERTY_X86_FEATURE_1_IBT : Nat := 1
def GNU_PROPERTY_X86_FEATURE_1_SHSTK : Nat := 2

/-- The size of an ELF header. -/
def EHDR_SIZE : Nat := 64

/-- Set a mark, unless it is in the ELF header or out of the file. -/
def setTarget (size : Nat) (targets : Nat → Bool) (offset : Int) : Nat → Bool :=
  if offset < EHDR_SIZE ∨ offset ≥ size then targets
  else fun q => if (q : Int) = offset then true else targets q

/-- Get the offset for an address. -/
def addrToOffset (phdrs : List Phdr) (addr : Int) (x : Bool) : Int :=
  if addr = 0 then INTPTR_MIN
  else
    let holds (phdr : Phdr) : Bool :=
      (phdr.p_type = PT_LOAD ∨ phdr.p_type = PT_GNU_RELRO) ∧ ¬(x ∧ phdr.p_flags &&& PF_X = 0) ∧
        addr ≥ phdr.p_vaddr ∧ addr < phdr.p_vaddr + phdr.p_filesz
    match phdrs.find? holds with
    | none => INTPTR_MIN
    | some phdr => phdr.p_offset + (addr - phdr.p_vaddr)

/-- The bytes of the file from `j` up to `end`. -/
def dataFrom (B : Binary) (j size : Nat) : List UInt8 := (List.range size).map fun i => B.original (j + i)

def rel8At (B : Binary) (j : Nat) : Int := word8 (dataFrom B j 1) 0
def rel32At (B : Binary) (j : Nat) : Int := word32 (dataFrom B j 4) 0

/-- What one round of the scan does at position `j`: the position of the next round, and what it marks. -/
def scanStep (B : Binary) (phdrs : List Phdr) (cet : Bool) (ub j : Nat) : Nat × List Int :=
  let b := B.original j
  if b = 0x0F then
    if j + 1 ≥ ub ∨ ¬isJcc32 (B.original (j + 1)) then (j + 1, [])
    else
      -- the second byte of the opcode is not looked at again
      let j := j + 1
      if j + 5 > ub then (j + 1, [])
      else (j + 1, [j + 5 + rel32At B (j + 1), ((j + 5 : Nat) : Int)])
  else if b = 0xE8 ∨ b = 0xE9 then
    if j + 5 > ub then (j + 1, [])
    else (j + 1, (j + 5 + rel32At B (j + 1)) :: if b = 0xE8 then [((j + 5 : Nat) : Int)] else [])
  else if b = 0xE3 ∨ b = 0xEB ∨ isJcc8 b then
    if j + 2 > ub then (j + 1, [])
    else (j + 1, [j + 2 + rel8At B (j + 1), ((j + 2 : Nat) : Int)])
  else if b = 0xFF then
    if j + 2 > ub then (j + 1, [])
    else
      match getModRMSize (dataFrom B (j + 1) (ub - (j + 1))) (ub - (j + 1)) with
      | none => (j + 1, [])
      | some sz => (j + 1, [((j + 1 + sz : Nat) : Int)])
  else if (0xB8 ≤ b ∧ b ≤ 0xBF) ∨ b = 0x68 then
    if B.pic ∨ j + 5 > ub then (j + 1, []) else (j + 1, [addrToOffset phdrs (rel32At B (j + 1)) true])
  else if b = 0xC7 then
    if B.pic ∨ j + 2 > ub then (j + 1, [])
    else
      match getModRMSize (dataFrom B (j + 1) (ub - (j + 1))) (ub - (j + 1)) with
      | none => (j + 1, [])
      | some sz =>
        if j + 1 + sz + 4 > ub then (j + 1, [])
        else (j + 1, [addrToOffset phdrs (rel32At B (j + 1 + sz)) true])
  else if b = 0x48 ∨ b = 0x4C then
    if j + 7 > ub ∨ B.original (j + 1) ≠ 0x8d then (j + 1, [])
    else
      let modRM := B.original (j + 2)
      let mod := (modRM &&& 0xc0) >>> 6
      let rm := modRM &&& 0x7
      if mod ≠ 0x00 ∧ rm ≠ 0x05 then (j + 1, []) else (j + 1, [j + 7 + rel32At B (j + 3)])
  else if b = 0xF3 then
    if j + 4 > ub ∨ !cet then (j + 1, [])
    else if B.original (j + 1) ≠ 0x0F ∨ B.original (j + 2) ≠ 0x1E ∨ B.original (j + 3) ≠ 0xFA then (j + 1, [])
    else (j + 1, [(j : Int)])
  else (j + 1, [])

/-- The scan from `j` on. -/
def scanFrom (B : Binary) (phdrs : List Phdr) (cet : Bool) (ub : Nat) : Nat → Nat → List Int
  | 0, _ => []
  | fuel + 1, j =>
    if j ≥ ub then []
    else
      let r := scanStep B phdrs cet ub j
      r.2 ++ scanFrom B phdrs cet ub fuel r.1

/-- The positions that the scan from `j` on has a round at. -/
def scanPositions (B : Binary) (phdrs : List Phdr) (cet : Bool) (ub : Nat) : Nat → Nat → List Nat
  | 0, _ => []
  | fuel + 1, j => if j ≥ ub then [] else j :: scanPositions B phdrs cet ub fuel (scanStep B phdrs cet ub j).1

def isCode (phdr : Phdr) : Bool := phdr.p_type = PT_LOAD ∧ phdr.p_flags &&& PF_X ≠ 0

/-- The end of a segment in the file. -/
def segmentEnd (B : Binary) (phdr : Phdr) : Nat := min B.size (phdr.p_offset + phdr.p_memsz)

/-- The scan of one segment. Every round goes on by one position at least. -/
def scanSegment (B : Binary) (phdrs : List Phdr) (cet : Bool) (phdr : Phdr) : List Int :=
  if isCode phdr then
    scanFrom B phdrs cet (segmentEnd B phdr) (segmentEnd B phdr - phdr.p_offset) phdr.p_offset
  else []

/-- What the target analysis of an ELF binary finds. `features` is the property note, if there is one, and
`indirect` the offsets of what is not found by the scan. Writable code is not supported. -/
def findTargets (B : Binary) (phdrs : List Phdr) (features : Option Nat) (indirect : List Int) :
    Option (Nat → Bool) :=
  let cet := match features with
    | none => true
    | some f => f &&& GNU_PROPERTY_X86_FEATURE_1_IBT = 0 ∨ f &&& GNU_PROPERTY_X86_FEATURE_1_SHSTK = 0
  if phdrs.any fun phdr => isCode phdr ∧ phdr.p_flags &&& PF_W ≠ 0 then none
  else some ((phdrs.flatMap (scanSegment B phdrs cet) ++ indirect).foldl (setTarget B.size) fun _ => false)

end E9Patch
