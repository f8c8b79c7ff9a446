import E9Patch.Reader

/-!
APE files (`e9ape.c`): detection, the parsing of the PE headers and of the end of the ZIP archive, the
translation of addresses, patching at an offset, and the listing of the archive. The file is an object in
memory; what `calloc` and `malloc` give is decided from outside.
-/

namespace E9Patch
open Reader

def APE_MAGIC_COSMO : List UInt8 := [0x4d, 0x5a, 0x71, 0x46, 0x70, 0x44]
def PE_SIGNATURE : List UInt8 := [0x50, 0x45, 0, 0]
def ELF_MAGIC : List UInt8 := [0x7f, 0x45, 0x4c, 0x46]
def ZIP_LOCAL_MAGIC : List UInt8 := [0x50, 0x4b, 0x03, 0x04]
def ZIP_CENTRAL_MAGIC : List UInt8 := [0x50, 0x4b, 0x01, 0x02]
def ZIP_END_MAGIC : List UInt8 := [0x50, 0x4b, 0x05, 0x06]
def PE_MACHINE_AMD64 : Nat := 0x8664
def PE_MACHINE_ARM64 : Nat := 0xAA64
def ELF_MACHINE_X86_64 : Nat := 0x3E
def ELF_MACHINE_AARCH64 : Nat := 0xB7

/-- A section in the cache. -/
structure APESection where
  offset : Int
  rva : Nat
  size : Nat
  deriving DecidableEq, Repr

/-- `E9_APEInfo`. -/
structure APEInfo where
  is_cosmopolitan : Bool
  pe_offset : Int
  pe_size : Nat
  pe_num_sections : Nat
  text : APESection
  rdata : APESection
  data : APESection
  has_arm64_elf : Bool
  arm64_elf_offset : Int
  is_assimilated : Bool
  x86_elf_offset : Int
  zipos_start : Int
  zipos_central_dir : Int
  zipos_end : Int
  zipos_num_entries : Nat
  preserve_zipos : Bool
  deriving DecidableEq, Repr

/-- What `memset` leaves. -/
def APEInfo.zero : APEInfo :=
  { is_cosmopolitan := false, pe_offset := 0, pe_size := 0, pe_num_sections := 0, text := ⟨0, 0, 0⟩
    rdata := ⟨0, 0, 0⟩, data := ⟨0, 0, 0⟩, has_arm64_elf := false, arm64_elf_offset := 0
    is_assimilated := false, x86_elf_offset := 0, zipos_start := 0, zipos_central_dir := 0, zipos_end := 0
    zipos_num_entries := 0, preserve_zipos := false }

/-! ### Detection -/

/-- The loop that looks for a heredoc in the MZ header; its result makes no difference. -/
def detectHeredoc (d : Block) : Nat → Nat → Except Fault Unit
  | 0, _ => .error .diverges
  | fuel + 1, i =>
    if i < 64 ∧ i < d.size - 2 then do
      let b ← read d i 1
      if b = 0x3c then do
        let c ← read d (i + 1) 1
        if c = 0x3c then .ok () else detectHeredoc d fuel (i + 1)
      else detectHeredoc d fuel (i + 1)
    else .ok ()

def e9_ape_detect (d : Block) : Except Fault Bool :=
  if d.size < 64 then .ok false
  else do
    let cosmo ← memcmp d 0 APE_MAGIC_COSMO
    if cosmo then .ok true
    else do
      let m ← read d 0 1
      if m ≠ 0x4d then .ok false
      else do
        let z ← read d 1 1
        if z ≠ 0x5a then .ok false
        else do
          let pe_offset ← read d 0x3C 4
          -- the sum is one of 32 bits
          if (pe_offset + 4) % 2 ^ 32 > d.size then .ok false
          else do
            let pe ← memcmp d pe_offset PE_SIGNATURE
            if pe then do
              detectHeredoc d 64 8
              .ok true
            else .ok false

/-! ### Parsing -/

/-- The loop that skips the marker of the heredoc. -/
def skipMarker (d : Block) : Nat → Nat → Except Fault Unit
  | 0, _ => .error .diverges
  | fuel + 1, k =>
    if k < d.size then do
      let b ← read d k 1
      if b = 0x27 then .ok () else skipMarker d fuel (k + 1)
    else .ok ()

/-- The loop that looks for the heredoc of the shell bootstrap. -/
def findHeredoc (d : Block) : Nat → Nat → Except Fault Unit
  | 0, _ => .error .diverges
  | fuel + 1, i =>
    if i < 128 ∧ i + 16 < d.size then do
      let a ← read d i 1
      if a ≠ 0x3c then findHeredoc d fuel (i + 1)
      else do
        let b ← read d (i + 1) 1
        if b ≠ 0x3c then findHeredoc d fuel (i + 1)
        else do
          let c ← read d (i + 2) 1
          if c = 0x27 then skipMarker d (d.size + 1) (i + 3) else findHeredoc d fuel (i + 1)
    else .ok ()

def SECTION_TEXT : List UInt8 := [0x2e, 0x74, 0x65, 0x78, 0x74]
def SECTION_RDATA : List UInt8 := [0x2e, 0x72, 0x64, 0x61, 0x74, 0x61]
def SECTION_DATA : List UInt8 := [0x2e, 0x64, 0x61, 0x74, 0x61]

/-- The cached fields of the section header at `sec`. -/
def readSection (d : Block) (sec : Int) : Except Fault APESection := do
  let offset ← read d (sec + 20) 4
  let rva ← read d (sec + 12) 4
  let size ← read d (sec + 16) 4
  .ok ⟨offset, rva, size⟩

/-- Cache the section whose header is at `sec`. -/
def cacheSection (d : Block) (sec : Int) (info : APEInfo) : Except Fault APEInfo := do
  let text ← memcmp d sec SECTION_TEXT
  if text then do
    let s ← readSection d sec
    .ok { info with text := s }
  else do
    let rdata ← memcmp d sec SECTION_RDATA
    if rdata then do
      let s ← readSection d sec
      .ok { info with rdata := s }
    else do
      let data ← memcmp d sec SECTION_DATA
      if data then do
        let s ← readSection d sec
        .ok { info with data := s }
      else .ok info

/-- The loop over the next `n` section headers. -/
def cacheSections (d : Block) : Nat → Int → APEInfo → Except Fault APEInfo
  | 0, _, info => .ok info
  | n + 1, sec, info => do
    let info ← cacheSection d sec info
    cacheSections d n (sec + 40) info

/-- The loop that looks for an embedded ELF file on the pages from `i`. -/
def findElf (d : Block) : Nat → Int → APEInfo → Except Fault APEInfo
  | 0, _, _ => .error .diverges
  | fuel + 1, i, info =>
    if i + 64 < d.size then do
      let elf ← memcmp d i ELF_MAGIC
      if elf then do
        let e_machine ← read d (i + 18) 2
        if e_machine = ELF_MACHINE_AARCH64 then
          .ok { info with has_arm64_elf := true, arm64_elf_offset := i }
        else if e_machine = ELF_MACHINE_X86_64 then
          findElf d fuel (i + 0x1000) { info with is_assimilated := true, x86_elf_offset := i }
        else findElf d fuel (i + 0x1000) info
      else findElf d fuel (i + 0x1000) info
    else .ok info

/-- The loop that looks for the first local header of the archive. -/
def findLocal (d : Block) (central : Int) : Nat → Int → Except Fault (Option Int)
  | 0, _ => .error .diverges
  | fuel + 1, j =>
    if j < central ∧ j + 4 < d.size then do
      let magic ← memcmp d j ZIP_LOCAL_MAGIC
      if magic then .ok (some j) else findLocal d central fuel (j + 1)
    else .ok none

/-- The loop that looks for the end of the archive, backwards from `i`. -/
def findZipEnd (d : Block) : Nat → Int → APEInfo → Except Fault APEInfo
  | 0, _, _ => .error .diverges
  | fuel + 1, i, info =>
    if i > 0 ∧ i > d.size - 65536 then do
      let magic ← memcmp d i ZIP_END_MAGIC
      if magic then do
        let entries ← read d (i + 10) 2
        let central ← read d (i + 16) 4
        let start ← findLocal d central (d.size + 1) 0
        .ok { info with
          zipos_end := i + 22, zipos_num_entries := entries, zipos_central_dir := central
          zipos_start := start.getD info.zipos_start }
      else findZipEnd d fuel (i - 1) info
    else .ok info

/-- The part of `e9_ape_parse` behind the headers. -/
def parseTail (d : Block) (info : APEInfo) : Except Fault (Option APEInfo) := do
  let search_start := (info.data.offset + info.data.size + 0xFFF) / 0x1000 * 0x1000
  let info ← findElf d (d.size + 1) search_start info
  let info ← findZipEnd d (d.size + 1) (d.size - 22) info
  .ok (some info)

/-- Parse the APE structure; `none` for -1. -/
def e9_ape_parse (d : Block) : Except Fault (Option APEInfo) :=
  if d.size < 64 then .ok none
  else do
    let ape ← e9_ape_detect d
    if !ape then .ok none
    else do
      let is_cosmopolitan ← memcmp d 0 APE_MAGIC_COSMO
      let pe_offset ← read d 0x3C 4
      if pe_offset + 24 > d.size then .ok none
      else do
        let signature ← memcmp d pe_offset PE_SIGNATURE
        if !signature then .ok none
        else do
          findHeredoc d 128 0x20
          let pe_coff : Int := pe_offset + 4
          let pe_num_sections ← read d (pe_coff + 2) 2
          let machine ← read d pe_coff 2
          if machine ≠ PE_MACHINE_AMD64 ∧ machine ≠ PE_MACHINE_ARM64 then .ok none
          else do
            let pe_opt := pe_coff + 20
            let magic ← read d pe_opt 2
            if magic ≠ 0x20B then .ok none
            else do
              let pe_size ← read d (pe_opt + 56) 4
              let optional ← read d (pe_coff + 16) 2
              let info ← cacheSections d (min pe_num_sections 16) (pe_opt + optional)
                { APEInfo.zero with
                  preserve_zipos := true, is_cosmopolitan := is_cosmopolitan, pe_offset := pe_offset
                  pe_num_sections := pe_num_sections, pe_size := pe_size }
              parseTail d info

/-! ### Address translation and patching -/

def APESection.contains (s : APESection) (rva : Nat) : Bool := s.rva ≤ rva ∧ rva < s.rva + s.size

def APESection.translate (s : APESection) (rva : Nat) : Int := s.offset + (rva - s.rva)

/-- Convert PE RVA to file offset. -/
def e9_ape_rva_to_offset (info : APEInfo) (rva : Nat) : Int :=
  if info.text.contains rva then info.text.translate rva
  else if info.rdata.contains rva then info.rdata.translate rva
  else if info.data.contains rva then info.data.translate rva
  else rva

/-- The check of `e9_ape_patch_offset`: whether the patch is written. The sum wraps around. -/
def patchOffsetOk (size : Nat) (offset : Int) (patch : Option (List UInt8)) (patch_size : Nat) : Bool :=
  patch.isSome && patch_size ≠ 0 && !(offset < 0 ∨ (offset + patch_size) % 2 ^ 64 > size)

/-! ### ZipOS -/

structure ZipOSEntry where
  name : Option (List UInt8)
  local_header_offset : Nat
  compressed_size : Nat
  uncompressed_size : Nat
  compression : Nat
  crc32 : Nat
  is_directory : Bool
  deriving DecidableEq, Repr

/-- What `calloc` leaves. -/
def ZipOSEntry.zero : ZipOSEntry := ⟨none, 0, 0, 0, 0, 0, false⟩

/-- Which allocations succeed: that of the array, and that of the name of each entry. -/
structure ZipAllocator where
  calloc : Bool
  malloc : Nat → Bool

/-- The position behind the central directory entry at `pos`. -/
def nextEntry (d : Block) (pos : Int) : Except Fault Int := do
  let name_len ← read d (pos + 28) 2
  let extra_len ← read d (pos + 30) 2
  let comment_len ← read d (pos + 32) 2
  .ok (pos + (46 + name_len + extra_len + comment_len))

/-- The loop that counts the entries of the central directory. -/
def countEntries (d : Block) : Nat → Int → Nat → Except Fault Nat
  | 0, _, _ => .error .diverges
  | fuel + 1, pos, count =>
    if pos + 46 < d.size then do
      let magic ← memcmp d pos ZIP_CENTRAL_MAGIC
      if !magic then .ok count
      else do
        let pos ← nextEntry d pos
        countEntries d fuel pos (count + 1)
    else .ok count

/-- The name of the entry at `pos`, if there is room for it. -/
def readName (d : Block) (pos : Int) (alloc : Bool) (name_len : Nat) : Except Fault (Option (List UInt8)) :=
  if alloc then do
    let name ← copy d (pos + 46) name_len
    .ok (some name)
  else .ok none

/-- The entry at `pos`. -/
def readEntry (d : Block) (pos : Int) (alloc : Bool) : Except Fault ZipOSEntry := do
  let compression ← read d (pos + 10) 2
  let crc32 ← read d (pos + 16) 4
  let compressed_size ← read d (pos + 20) 4
  let uncompressed_size ← read d (pos + 24) 4
  let local_header_offset ← read d (pos + 42) 4
  let name_len ← read d (pos + 28) 2
  let name ← readName d pos alloc name_len
  .ok ⟨name, local_header_offset, compressed_size, uncompressed_size, compression, crc32,
    name.any fun name => name.getLast? = some 0x2f⟩

/-- The loop that fills the `n` entries that are left, the first of them number `i`. -/
def fillEntries (d : Block) (alloc : ZipAllocator) : Nat → Nat → Int → Except Fault (List ZipOSEntry)
  | 0, _, _ => .ok []
  | n + 1, i, pos =>
    if pos + 46 < d.size then do
      let entry ← readEntry d pos (alloc.malloc i)
      let pos ← nextEntry d pos
      let entries ← fillEntries d alloc n (i + 1) pos
      .ok (entry :: entries)
    else .ok (List.replicate (n + 1) ZipOSEntry.zero)

/-- List ZipOS entries; `none` for a null pointer. -/
def e9_ape_zipos_list (d : Block) (info : APEInfo) (alloc : ZipAllocator) :
    Except Fault (Option (List ZipOSEntry)) :=
  if info.zipos_central_dir = 0 then .ok none
  else do
    let count ← countEntries d (d.size + 1) info.zipos_central_dir 0
    if count = 0 then .ok none
    else if !alloc.calloc then .ok none
    else do
      let entries ← fillEntries d alloc count 0 info.zipos_central_dir
      .ok (some entries)

/-- Check if path exists in ZipOS. -/
def e9_ape_zipos_exists (d : Block) (info : APEInfo) (alloc : ZipAllocator) (path : Option (List UInt8)) :
    Except Fault Bool :=
  match path with
  | none => .ok false
  | some path => do
    match ← e9_ape_zipos_list d info alloc with
    | none => .ok false
    | some entries =>
      .ok (entries.any fun e => e.name.any fun name => name.takeWhile (· ≠ 0) = path.takeWhile (· ≠ 0))

end E9Patch
