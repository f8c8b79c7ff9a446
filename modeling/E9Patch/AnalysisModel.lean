import E9Patch.ApeModel
import E9Patch.Bytes

/-!
Format detection and symbols of the analysis engine (`analysis/e9analysis.c`). The branches for ELF, PE,
Mach-O and APE files read headers and tables at offsets that the file gives. Those are 64-bit pointers that
wrap around; sums and products are of the type the source computes them in. What `calloc` gives is decided
from outside. A division by zero stops the program.
-/

namespace E9Patch
open Reader Bytes

inductive Arch where
  | UNKNOWN
  | X86_64
  | AARCH64
  deriving DecidableEq, Repr

inductive Format where
  | UNKNOWN
  | ELF
  | PE
  | MACHO
  | APE
  | RAW
  deriving DecidableEq, Repr

structure SectionInfo where
  addr : Nat
  size : Nat
  flags : Nat
  name : List UInt8
  deriving DecidableEq, Repr

inductive SymbolType where
  | UNKNOWN
  | FUNCTION
  | GLOBAL_VAR
  deriving DecidableEq, Repr

structure Symbol where
  name : Option (List UInt8)
  address : Nat
  size : Nat
  type : SymbolType
  is_weak : Bool
  is_external : Bool
  deriving DecidableEq, Repr

/-- APE-specific layout. -/
structure ApeLayout where
  shell_offset : Nat
  shell_size : Nat
  elf_offset : Nat
  elf_size : Nat
  pe_offset : Nat
  pe_size : Nat
  zipos_start : Nat
  zipos_central_dir : Nat
  zipos_end : Nat
  zipos_num_entries : Nat
  deriving DecidableEq, Repr

/-- Binary analysis context, without the data. -/
structure E9Binary where
  arch : Arch
  format : Format
  base_address : Nat
  entry_point : Nat
  is_pie : Bool
  has_debug_info : Bool
  sections : List SectionInfo
  symbols : List Symbol
  ape : ApeLayout
  deriving DecidableEq, Repr

def ApeLayout.zero : ApeLayout := ⟨0, 0, 0, 0, 0, 0, 0, 0, 0, 0⟩

/-- What `e9_binary_create` leaves. -/
def E9Binary.zero : E9Binary := ⟨.UNKNOWN, .UNKNOWN, 0, 0, false, false, [], [], ApeLayout.zero⟩

/-- Which allocations succeed: the section array, each symbol, and each name. -/
structure AnalysisAllocator where
  sections : Bool
  symbol : Nat → Bool
  name : Nat → Bool

/-- The offset of a pointer into the data. -/
def ptr (off : Int) : Int := off % 2 ^ 64

/-- The word of `n` bytes with its bytes swapped. -/
def bswap : Nat → Nat → Nat
  | 0, _ => 0
  | n + 1, x => x % 256 * 256 ^ n + bswap n (x / 256)

/-! ### Strings -/

/-- `strncmp` of the string at `off` with all characters of `s`, or `strcmp` if `s` has its terminator. -/
def strEquals (d : Block) (off : Int) : List UInt8 → Except Fault Bool
  | [] => .ok true
  | b :: s => do
    let c ← read d (ptr off) 1
    if c ≠ b.toNat then .ok false else strEquals d (off + 1) s

/-- `strncpy` of at most `n` characters. -/
def strncpy (d : Block) (off : Int) : Nat → Except Fault (List UInt8)
  | 0 => .ok []
  | n + 1 => do
    let c ← read d (ptr off) 1
    if c = 0 then .ok []
    else do
      let s ← strncpy d (off + 1) n
      .ok (UInt8.ofNat c :: s)

/-- The loop of `strlen`, with the characters that it passes. -/
def strlen (d : Block) : Nat → Int → Except Fault (List UInt8)
  | 0, _ => .error .diverges
  | fuel + 1, off => do
    let c ← read d (ptr off) 1
    if c = 0 then .ok []
    else do
      let s ← strlen d fuel (off + 1)
      .ok (UInt8.ofNat c :: s)

/-! ### ELF -/

def archOf (machine x64 arm64 : Nat) : Arch :=
  if machine = x64 then .X86_64 else if machine = arm64 then .AARCH64 else .UNKNOWN

def DEBUG_PREFIX : List UInt8 := [0x2e, 0x64, 0x65, 0x62, 0x75, 0x67]

/-- The section header table of an ELF file. -/
structure SectionTable where
  shoff : Nat
  shentsize : Nat
  shnum : Nat
  shstrndx : Nat
  deriving DecidableEq, Repr

def readSectionTable (d : Block) : Except Fault SectionTable := do
  let shoff ← read d 40 8
  let shentsize ← read d 58 2
  let shnum ← read d 60 2
  let shstrndx ← read d 62 2
  .ok ⟨shoff, shentsize, shnum, shstrndx⟩

/-- The header of section `i`; the product is an `int`. -/
def SectionTable.row (t : SectionTable) (i : Nat) : Int := ptr (t.shoff + signed32 (i * t.shentsize))

/-- The end of the table, as the checks compute it. -/
def SectionTable.tableEnd (t : SectionTable) : Int := t.row t.shnum

/-- The loop over the sections from `i` on; `n` are left. -/
def detectSections (d : Block) (t : SectionTable) (strtab_off strtab_size : Nat) (alloc : Bool) :
    Nat → Nat → E9Binary → Except Fault E9Binary
  | 0, _, bin => .ok bin
  | n + 1, i, bin => do
    let shdr := t.row i
    let name_off ← read d shdr 4
    let addr ← read d (ptr (shdr + 16)) 8
    let size ← read d (ptr (shdr + 32)) 8
    let flags ← read d (ptr (shdr + 8)) 8
    if name_off < strtab_size then do
      let debug ← strEquals d (strtab_off + name_off) DEBUG_PREFIX
      let bin := { bin with has_debug_info := bin.has_debug_info || debug }
      if alloc then do
        let name ← strncpy d (strtab_off + name_off) 31
        detectSections d t strtab_off strtab_size alloc n (i + 1)
          { bin with sections := bin.sections ++ [⟨addr, size, flags % 2 ^ 32, name⟩] }
      else detectSections d t strtab_off strtab_size alloc n (i + 1) bin
    else detectSections d t strtab_off strtab_size alloc n (i + 1) bin

/-- The section headers, as `detect_elf` goes over them. -/
def detectSectionTable (d : Block) (t : SectionTable) (alloc : Bool) (bin : E9Binary) : Except Fault E9Binary :=
  if t.shoff ≠ 0 ∧ t.shnum ≠ 0 ∧ t.shstrndx < t.shnum ∧ t.tableEnd ≤ d.size then do
    let hdr := t.row t.shstrndx
    let strtab_off ← read d (ptr (hdr + 24)) 8
    let strtab_size ← read d (ptr (hdr + 32)) 8
    if (strtab_off + strtab_size) % 2 ^ 64 ≤ d.size then
      detectSections d t strtab_off strtab_size alloc t.shnum 0 bin
    else .ok bin
  else .ok bin

def detect_elf (d : Block) (alloc : Bool) (bin : E9Binary) : Except Fault (Int × E9Binary) :=
  if d.size < 64 then .ok (-1, bin)
  else do
    let ei_class ← read d 4 1
    if ei_class ≠ 2 then .ok (-1, bin)
    else do
      let machine ← read d 18 2
      let entry_point ← read d 24 8
      let e_type ← read d 16 2
      let t ← readSectionTable d
      let bin ← detectSectionTable d t alloc
        { bin with
          format := .ELF, arch := archOf machine ELF_MACHINE_X86_64 ELF_MACHINE_AARCH64
          entry_point := entry_point, is_pie := e_type = 3 }
      .ok (0, bin)

/-! ### PE -/

def detect_pe (d : Block) (bin : E9Binary) : Except Fault (Int × E9Binary) :=
  if d.size < 64 then .ok (-1, bin)
  else do
    let pe_off ← read d 0x3C 4
    -- the sum is one of 32 bits, as is that with the size of the optional header
    if (pe_off + 24) % 2 ^ 32 > d.size then .ok (-1, bin)
    else do
      let signature ← memcmp d pe_off PE_SIGNATURE
      if !signature then .ok (-1, bin)
      else do
        let machine ← read d (pe_off + 4) 2
        let bin := { bin with format := .PE, arch := archOf machine PE_MACHINE_AMD64 PE_MACHINE_ARM64 }
        let opt_hdr_size ← read d (pe_off + 20) 2
        if (pe_off + 24 + opt_hdr_size) % 2 ^ 32 ≤ d.size then do
          let magic ← read d (pe_off + 24) 2
          if magic = 0x20B then do
            let entry_point ← read d (pe_off + 40) 4
            let base_address ← read d (pe_off + 48) 8
            .ok (0, { bin with entry_point := entry_point, base_address := base_address })
          else .ok (0, bin)
        else .ok (0, bin)

/-! ### Mach-O -/

def MACHO_MAGIC_64 : Nat := 0xFEEDFACF
def MACHO_CIGAM_64 : Nat := 0xCFFAEDFE
def MACHO_CPU_X64 : Nat := 0x01000007
def MACHO_CPU_ARM64 : Nat := 0x0100000C

/-- `"__TEXT"` with its terminator. -/
def SEGMENT_TEXT : List UInt8 := [0x5f, 0x5f, 0x54, 0x45, 0x58, 0x54, 0]

/-- The byte order of the file. -/
def swapped (swap : Bool) (n x : Nat) : Nat := if swap then bswap n x else x

/-- What the load command at `offset` says about the entry point. -/
def loadMain (d : Block) (swap : Bool) (cmd offset : Nat) (bin : E9Binary) : Except Fault E9Binary :=
  if cmd % 256 = 0x28 ∧ offset + 24 ≤ d.size then do
    let entry_point ← read d (offset + 8) 8
    .ok { bin with entry_point := swapped swap 8 entry_point }
  else .ok bin

/-- What the load command at `offset` says about the base address. -/
def loadSegment (d : Block) (swap : Bool) (cmd offset : Nat) (bin : E9Binary) : Except Fault E9Binary :=
  if cmd = 0x19 ∧ offset + 72 ≤ d.size then do
    let text ← strEquals d (offset + 8) SEGMENT_TEXT
    if text then do
      let base_address ← read d (offset + 24) 8
      .ok { bin with base_address := swapped swap 8 base_address }
    else .ok bin
  else .ok bin

/-- The loop over the load commands; `n` are left. -/
def loadCommands (d : Block) (swap : Bool) : Nat → Nat → E9Binary → Except Fault E9Binary
  | 0, _, bin => .ok bin
  | n + 1, offset, bin =>
    if offset + 8 ≤ d.size then do
      let cmd ← read d offset 4
      let cmdsize ← read d (offset + 4) 4
      let bin ← loadMain d swap (swapped swap 4 cmd) offset bin
      let bin ← loadSegment d swap (swapped swap 4 cmd) offset bin
      loadCommands d swap n ((offset + swapped swap 4 cmdsize) % 2 ^ 64) bin
    else .ok bin

def detect_macho (d : Block) (bin : E9Binary) : Except Fault (Int × E9Binary) := do
  let magic ← read d 0 4
  let swap : Bool := magic = MACHO_CIGAM_64
  let cputype ← read d 4 4
  let ncmds ← read d 16 4
  let bin ← loadCommands d swap (swapped swap 4 ncmds) 32
    { bin with format := .MACHO, arch := archOf (swapped swap 4 cputype) MACHO_CPU_X64 MACHO_CPU_ARM64 }
  .ok (0, bin)

/-! ### APE -/

/-- Whether there is an MZ header at `i` with a PE signature; `lookup` is the check on `i` itself. -/
def peAt (d : Block) (i : Nat) (lookup : Bool) : Except Fault Bool := do
  let m ← read d i 1
  if m ≠ 0x4d then .ok false
  else do
    let z ← read d (i + 1) 1
    if z ≠ 0x5a ∨ !lookup then .ok false
    else do
      let pe_off ← read d (i + 0x3C) 4
      if i + pe_off + 4 < d.size then memcmp d (i + pe_off) PE_SIGNATURE else .ok false

def elfSeen (d : Block) (i : Nat) (has_elf : Bool) : Except Fault Bool :=
  if has_elf then .ok true else memcmp d i ELF_MAGIC

def peSeen (d : Block) (i : Nat) (has_pe : Bool) : Except Fault Bool :=
  if has_pe then .ok true else peAt d i (i + 64 < d.size)

/-- The loop that looks for an ELF and a PE header behind a shell script. -/
def scanShell (d : Block) : Nat → Nat → Bool → Bool → Except Fault Bool
  | 0, _, _, _ => .ok false
  | n + 1, i, has_elf, has_pe => do
    let has_elf ← elfSeen d i has_elf
    let has_pe ← peSeen d i has_pe
    if has_elf && has_pe then .ok true else scanShell d n (i + 1) has_elf has_pe

/-- The loop that looks for an ELF header behind an MZ header. -/
def scanMZ (d : Block) : Nat → Nat → Except Fault Bool
  | 0, _ => .error .diverges
  | fuel + 1, i =>
    if i < 4096 ∧ i + 4 < d.size then do
      let elf ← memcmp d i ELF_MAGIC
      if elf then .ok true else scanMZ d fuel (i + 1)
    else .ok false

/-- The shell script variant, for a file with the first characters `c₀` and `c₁`. -/
def isShellApe (d : Block) (c₀ c₁ : Nat) : Except Fault Bool :=
  if c₀ = 0x23 ∧ c₁ = 0x21 then scanShell d (min d.size 65536 - 4) 0 false false else .ok false

def e9_binary_is_ape (d : Block) : Except Fault Bool :=
  if d.size < 64 then .ok false
  else do
    let mz ← memcmp d 0 APE_MAGIC_COSMO
    if mz then .ok true
    else do
      let c₀ ← read d 0 1
      let c₁ ← read d 1 1
      let shell ← isShellApe d c₀ c₁
      if shell then .ok true
      else if c₀ = 0x4d ∧ c₁ = 0x5a then scanMZ d 4096 64
      else .ok false

/-- The loop that looks for the end of the shell script. -/
def shellSize (d : Block) : Nat → Nat → Except Fault Nat
  | 0, _ => .error .diverges
  | fuel + 1, i =>
    if i < d.size ∧ i < 4096 then do
      let c ← read d i 1
      if c = 0x7f ∧ i + 4 < d.size then do
        let elf ← memcmp d i ELF_MAGIC
        if elf then .ok i else shellSize d fuel (i + 1)
      else shellSize d fuel (i + 1)
    else .ok 0

/-- The size of the shell script, for a file with the first characters `c₀` and `c₁`. -/
def findShellSize (d : Block) (c₀ c₁ : Nat) : Except Fault Nat :=
  if c₀ = 0x23 ∧ c₁ = 0x21 then shellSize d 4097 0 else .ok 0

/-- The loop over the program headers from `j` on, of which `n` are left; `base` is the first. -/
def programHeaders (d : Block) (base : Nat) : Nat → Nat → Nat → Except Fault Nat
  | 0, _, max_end => .ok max_end
  | n + 1, j, max_end =>
    if (base + 56) % 2 ^ 64 ≤ d.size then do
      let p_offset ← read d (ptr (base + j * 56 + 8)) 8
      let p_filesz ← read d (ptr (base + j * 56 + 32)) 8
      programHeaders d base n (j + 1) (max max_end ((p_offset + p_filesz) % 2 ^ 64))
    else .ok max_end

/-- The ELF header at `i` of an APE file. -/
def apeElf (d : Block) (i : Nat) (bin : E9Binary) : Except Fault E9Binary :=
  let bin := { bin with ape := { bin.ape with elf_offset := i } }
  if i + 64 < d.size then do
    let ei_class ← read d (i + 4) 1
    if ei_class = 2 then do
      let entry ← read d (i + 24) 8
      let phoff ← read d (i + 32) 8
      let phnum ← read d (i + 56) 2
      let max_end ← programHeaders d (i + phoff) phnum 0 0
      let machine ← read d (i + 18) 2
      .ok { bin with
        entry_point := entry, arch := archOf machine ELF_MACHINE_X86_64 ELF_MACHINE_AARCH64
        ape := { bin.ape with elf_size := max_end } }
    else .ok bin
  else .ok bin

/-- The loop that looks for the ELF header. -/
def findApeElf (d : Block) : Nat → Nat → E9Binary → Except Fault E9Binary
  | 0, _, _ => .error .diverges
  | fuel + 1, i, bin =>
    if i < d.size - 4 ∧ i < 65536 then do
      let elf ← memcmp d i ELF_MAGIC
      if elf then apeElf d i bin else findApeElf d fuel (i + 1) bin
    else .ok bin

/-- The loop over the PE section headers at `sec_table`, of which `n` are left. -/
def peSections (d : Block) : Nat → Nat → Nat → Except Fault Nat
  | 0, _, max_end => .ok max_end
  | n + 1, sec_table, max_end =>
    if sec_table + 40 ≤ d.size then do
      let raw_ptr ← read d (sec_table + 20) 4
      let raw_size ← read d (sec_table + 16) 4
      peSections d n (sec_table + 40) (max max_end ((raw_ptr + raw_size) % 2 ^ 32))
    else .ok max_end

/-- The PE header of the MZ header at `i` of an APE file. -/
def apePe (d : Block) (i : Nat) (bin : E9Binary) : Except Fault E9Binary := do
  let pe_off ← read d (i + 0x3C) 4
  let num_sections ← read d (i + pe_off + 6) 2
  let opt_hdr_size ← read d (i + pe_off + 20) 2
  let max_end ← peSections d num_sections (i + pe_off + 24 + opt_hdr_size) 0
  .ok { bin with ape := { bin.ape with pe_offset := i, pe_size := max_end } }

/-- The loop that looks for the PE header. -/
def findApePe (d : Block) : Nat → Nat → E9Binary → Except Fault E9Binary
  | 0, _, _ => .error .diverges
  | fuel + 1, i, bin =>
    if i < d.size - 64 then do
      let pe ← peAt d i true
      if pe then apePe d i bin else findApePe d fuel (i + 1) bin
    else .ok bin

/-- `detect_ape`'s search for the first local file header. -/
def zipStart (d : Block) (central : Nat) : Nat → Nat → Except Fault Nat
  | 0, _ => .error .diverges
  | fuel + 1, j =>
    if j < central ∧ j + 4 < d.size then do
      let magic ← memcmp d j ZIP_LOCAL_MAGIC
      if magic then .ok j else zipStart d central fuel (j + 1)
    else .ok 0

/-- The loop that looks for the end of the archive; the lower limit wraps around for a small file. -/
def findZip (d : Block) : Nat → Nat → E9Binary → Except Fault E9Binary
  | 0, _, _ => .error .diverges
  | fuel + 1, i, bin =>
    if i > 0 ∧ (i : Int) > ptr (d.size - 65536) then do
      let magic ← memcmp d i ZIP_END_MAGIC
      if magic then do
        let entries ← read d (i + 10) 2
        let central ← read d (i + 16) 4
        let start ← zipStart d central (d.size + 1) 0
        .ok { bin with
          ape := { bin.ape with
            zipos_end := i + 22, zipos_num_entries := entries, zipos_central_dir := central
            zipos_start := start } }
      else findZip d fuel (i - 1) bin
    else .ok bin

def detect_ape (d : Block) (bin : E9Binary) : Except Fault (Int × E9Binary) := do
  let bin := { bin with format := .APE, ape := ApeLayout.zero }
  let c₀ ← read d 0 1
  let c₁ ← read d 1 1
  let shell_size ← findShellSize d c₀ c₁
  let bin := { bin with ape := { bin.ape with shell_size := shell_size } }
  let bin ← findApeElf d 65537 0 bin
  let bin ← findApePe d (d.size + 1) 0 bin
  let bin ← findZip d (d.size + 1) (d.size - 22) bin
  .ok (0, { bin with
    entry_point := if bin.entry_point = 0 then 0x400000 else bin.entry_point
    base_address := if bin.base_address = 0 then 0x400000 else bin.base_address })

/-! ### Detection -/

/-- The heuristics for a raw binary. -/
def detectRaw (d : Block) (bin : E9Binary) : Except Fault (Int × E9Binary) := do
  let bin := { bin with format := .RAW }
  let prolog ← memcmp d 0 [0x55, 0x48, 0x89]
  if prolog then .ok (0, { bin with arch := .X86_64 })
  else do
    let insn ← read d 0 4
    if insn &&& 0x7F800000 = 0x29000000 ∨ insn &&& 0xFFE00000 = 0xD1000000 then
      .ok (0, { bin with arch := .AARCH64 })
    else .ok (0, { bin with arch := .UNKNOWN })

def e9_binary_detect (d : Block) (alloc : AnalysisAllocator) (bin : E9Binary) : Except Fault (Int × E9Binary) :=
  if d.size < 16 then .ok (-1, bin)
  else do
    let ape ← e9_binary_is_ape d
    if ape then detect_ape d bin
    else do
      let elf ← memcmp d 0 ELF_MAGIC
      if elf then detect_elf d alloc.sections bin
      else do
        let mz ← memcmp d 0 [0x4d, 0x5a]
        if mz then detect_pe d bin
        else do
          let magic ← read d 0 4
          if magic = MACHO_MAGIC_64 ∨ magic = MACHO_CIGAM_64 then detect_macho d bin
          else detectRaw d bin

/-! ### Symbols -/

/-- The symbol table that was chosen, and its string table. -/
structure SymTab where
  symtab_off : Nat
  symtab_size : Nat
  symtab_entsize : Nat
  strtab_off : Nat
  deriving DecidableEq, Repr

/-- What the section header number `i` makes of the choice. -/
def chooseSymTab (d : Block) (t : SectionTable) (i : Nat) (s : SymTab) : Except Fault SymTab := do
  let shdr := t.row i
  let sh_type ← read d (ptr (shdr + 4)) 4
  let _ ← read d shdr 4
  if sh_type = 2 ∨ sh_type = 11 ∧ s.symtab_off = 0 then do
    let symtab_off ← read d (ptr (shdr + 24)) 8
    let symtab_size ← read d (ptr (shdr + 32)) 8
    let symtab_entsize ← read d (ptr (shdr + 56)) 4
    let link ← read d (ptr (shdr + 40)) 4
    if link < t.shnum then do
      let strtab_off ← read d (ptr (t.row link + 24)) 8
      .ok ⟨symtab_off, symtab_size, symtab_entsize, strtab_off⟩
    else .ok ⟨symtab_off, symtab_size, symtab_entsize, s.strtab_off⟩
  else .ok s

/-- The loop over the section headers from `i` on; `n` are left. -/
def chooseSymTabs (d : Block) (t : SectionTable) : Nat → Nat → SymTab → Except Fault SymTab
  | 0, _, s => .ok s
  | n + 1, i, s => do
    let s ← chooseSymTab d t i s
    chooseSymTabs d t n (i + 1) s

def symbolType (st_info : Nat) : SymbolType :=
  if st_info % 16 = 2 then .FUNCTION else if st_info % 16 = 1 then .GLOBAL_VAR else .UNKNOWN

/-- The symbol number `i`, if it gets one; the product is one of 32 bits. -/
def readSymbol (d : Block) (s : SymTab) (alloc : AnalysisAllocator) (i : Nat) : Except Fault (Option Symbol) := do
  let sym := ptr (s.symtab_off + i * s.symtab_entsize % 2 ^ 32)
  let st_name ← read d sym 4
  let st_info ← read d (ptr (sym + 4)) 1
  let st_value ← read d (ptr (sym + 8)) 8
  let st_size ← read d (ptr (sym + 16)) 8
  if st_name = 0 ∨ st_value = 0 then .ok none
  else do
    let c ← read d (ptr (s.strtab_off + st_name)) 1
    if c = 0 ∨ !alloc.symbol i then .ok none
    else do
      let name ← strlen d (d.size + 1) (s.strtab_off + st_name)
      .ok (some ⟨if alloc.name i then some name else none, st_value, st_size, symbolType st_info,
        st_info / 16 = 2, st_info / 16 = 1⟩)

/-- The loop over the symbols from `i` on, of which `n` are left; the list is in reverse order. -/
def readSymbols (d : Block) (s : SymTab) (alloc : AnalysisAllocator) :
    Nat → Nat → List Symbol → Except Fault (List Symbol)
  | 0, _, symbols => .ok symbols
  | n + 1, i, symbols => do
    let symbol ← readSymbol d s alloc i
    readSymbols d s alloc n (i + 1) (symbol.toList ++ symbols)

/-- Parse the symbols of an ELF file; `none` where the program is stopped by a division by zero. -/
def parse_elf_symbols (d : Block) (alloc : AnalysisAllocator) (bin : E9Binary) :
    Except Fault (Option (Int × E9Binary)) := do
  let t ← readSectionTable d
  if t.shoff = 0 ∨ t.shnum = 0 ∨ t.tableEnd > d.size then .ok (some (0, bin))
  else do
    let _ ← read d (ptr (t.row t.shstrndx + 24)) 8
    let s ← chooseSymTabs d t t.shnum 0 ⟨0, 0, 24, 0⟩
    if s.symtab_off = 0 ∨ s.strtab_off = 0 then .ok (some (0, bin))
    else if s.symtab_entsize = 0 then .ok none
    else do
      let num_syms := s.symtab_size / s.symtab_entsize % 2 ^ 32
      let symbols ← readSymbols d s alloc num_syms 0 bin.symbols
      .ok (some (0, { bin with symbols := symbols }))

def parse_pe_symbols (d : Block) (bin : E9Binary) : Except Fault (Int × E9Binary) := do
  let pe_off ← read d 0x3C 4
  let opt_magic ← read d (pe_off + 24) 2
  if opt_magic ≠ 0x20B then .ok (0, bin)
  else do
    let _ ← read d (pe_off + 136) 4
    let _ ← read d (pe_off + 140) 4
    .ok (0, bin)

def e9_symbols_parse (d : Block) (alloc : AnalysisAllocator) (bin : E9Binary) :
    Except Fault (Option (Int × E9Binary)) :=
  match bin.format with
  | .ELF => parse_elf_symbols d alloc bin
  | .PE => do
    let r ← parse_pe_symbols d bin
    .ok (some r)
  | _ => .ok (some (0, bin))

/-- `e9_binary_create`, `e9_binary_detect` and `e9_symbols_parse`. -/
def analysisSession (d : Block) (alloc : AnalysisAllocator) : Except Fault (Option (Int × E9Binary)) := do
  let (_, bin) ← e9_binary_detect d alloc E9Binary.zero
  e9_symbols_parse d alloc bin

end E9Patch
