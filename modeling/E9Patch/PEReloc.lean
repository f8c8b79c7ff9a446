import E9Patch.Bytes
import E9Patch.Fallible

/-!
The base relocations of `emitPE`. The table is a sequence of blocks, each for one page, with the offsets of the
64-bit slots of that page. The loop reads the table from the very image that it changes. A slot is located by its
page, so it is the right one only if the page is looked up to where the slot is in the file.
-/

namespace E9Patch
open Bytes Fallible

/-! ### The model -/

namespace PE

/-- A section header. -/
structure IMAGE_SECTION_HEADER where
  VirtualAddress : Nat
  VirtualSize : Nat
  PointerToRawData : Nat
  SizeOfRawData : Nat
  deriving DecidableEq, Repr

/-- What the headers tell: sections, flags, and where the relocation table is. -/
structure Headers where
  shdr : List IMAGE_SECTION_HEADER
  RELOCS_STRIPPED : Bool
  DYNAMIC_BASE : Bool
  relocs : Nat
  relocs_size : Nat

/-- Find data: the position in the file of an address. Numbers have 32 bits. -/
def findPEData (shdr : List IMAGE_SECTION_HEADER) (addr : Nat) : Option Nat :=
  if addr = 0 then none
  else
    (shdr.find? fun s => addr ≥ s.VirtualAddress ∧ addr < (s.VirtualAddress + s.VirtualSize) % 2 ^ 32).map fun s =>
      (s.PointerToRawData + (addr - s.VirtualAddress)) % 2 ^ 32

/-- The number of `n` bytes at a position. -/
def word (data : Nat → UInt8) (p : Nat) : Nat → Nat
  | 0 => 0
  | n + 1 => (data p).toNat + 2 ^ 8 * word data (p + 1) n

/-- Add to the 64-bit word at a position. -/
def add64 (delta : Int) (data : Nat → UInt8) (p : Nat) : Nat → UInt8 :=
  fun q => if p ≤ q ∧ q < p + 8 then byteAt (le64 (word data p 8 + delta)) (q - p) else data q

/-- The ends of the loop that are not its own. -/
inductive Failure where
  | blockSize
  | relocType
  | nullptr
  deriving DecidableEq, Repr

/-- The state of the loop. `reads` are the places in the table that were read, with their sizes, and `writes` the
positions of the words that were changed. -/
structure Rebase where
  data : Nat → UInt8
  bytes : Nat
  reads : List (Nat × Nat)
  writes : List Nat

def entryType (entry : Nat) : Nat := entry / 2 ^ 12 % 2 ^ 4
def entryOffset (entry : Nat) : Nat := entry % 2 ^ 12

/-- One entry of the block at `block`. -/
def relocateEntry (delta : Int) (relocs_base block : Nat) (block_base : Option Nat) (s : Rebase) (i : Nat) :
    Except Failure Rebase :=
  let entry := word s.data (relocs_base + block + 8 + 2 * i) 2
  let s := { s with reads := s.reads ++ [(block + 8 + 2 * i, 2)] }
  if entryType entry = 0 then .ok s
  else if entryType entry ≠ 0xa then .error .relocType
  else
    match block_base with
    | none => .error .nullptr
    | some p =>
      .ok { s with
        data := add64 delta s.data (p + entryOffset entry)
        writes := s.writes ++ [p + entryOffset entry] }

/-- One block. -/
def relocateBlock (h : Headers) (delta : Int) (relocs_base : Nat) (s : Rebase) : Except Failure Rebase :=
  let block := s.bytes
  let SizeOfBlock := word s.data (relocs_base + block + 4) 4
  if SizeOfBlock < 8 ∨ (block + SizeOfBlock) % 2 ^ 32 > h.relocs_size then .error .blockSize
  else
    let VirtualAddress := word s.data (relocs_base + block) 4
    (List.range ((SizeOfBlock - 8) / 2)).foldlM
      (relocateEntry delta relocs_base block (findPEData h.shdr VirtualAddress))
      { s with
        bytes := (block + SizeOfBlock) % 2 ^ 32
        reads := s.reads ++ [(block + 4, 4), (block, 4)] }

/-- The loop over the blocks. The difference in its condition has 64 bits. -/
def relocateBlocks (h : Headers) (delta : Int) (relocs_base : Nat) : Nat → Rebase → Option (Except Failure Rebase)
  | 0, _ => none
  | fuel + 1, s =>
    if s.bytes ≤ (h.relocs_size + 2 ^ 64 - 8) % 2 ^ 64 then
      match relocateBlock h delta relocs_base s with
      | .error e => some (.error e)
      | .ok s => relocateBlocks h delta relocs_base fuel s
    else some (.ok s)

def haveRelocs (h : Headers) : Bool := !h.RELOCS_STRIPPED ∧ h.DYNAMIC_BASE ∧ h.relocs ≠ 0 ∧ h.relocs_size > 0

/-- Rebase the executable (if necessary). -/
def rebase (h : Headers) (delta : Int) (data : Nat → UInt8) (fuel : Nat) : Option (Except Failure Rebase) :=
  let s := ⟨data, 0, [], []⟩
  if delta ≠ 0 ∧ haveRelocs h then
    match findPEData h.shdr h.relocs with
    | none => some (.error .nullptr)
    | some relocs_base => relocateBlocks h delta relocs_base fuel s
  else some (.ok s)

/-! ### The table -/

/-- A well-formed sequence of blocks from a place in the table on: each at least has its header, and what is behind
the last one has no room for another header. -/
inductive Blocks (data : Nat → UInt8) (base size : Nat) : Nat → List Nat → Prop where
  | done {block : Nat} (h : size < block + 8) : Blocks data base size block []
  | block {block : Nat} {bs : List Nat} (hheader : 8 ≤ word data (base + block + 4) 4)
      (hsize : block + word data (base + block + 4) 4 ≤ size)
      (hrest : Blocks data base size (block + word data (base + block + 4) 4) bs) :
      Blocks data base size block (block :: bs)

/-- How far a section is moved from its addresses to its place in the file. -/
def IMAGE_SECTION_HEADER.shift (s : IMAGE_SECTION_HEADER) : Int := s.PointerToRawData - s.VirtualAddress

/-- An address is in the memory of a section, whose end has 32 bits. -/
def Has (rva : Nat) (s : IMAGE_SECTION_HEADER) : Prop :=
  s.VirtualAddress ≤ rva ∧ rva < (s.VirtualAddress + s.VirtualSize) % 2 ^ 32

/-- The eight bytes of a slot are in the memory of a section and in its raw data. -/
def HasSlot (rva : Nat) (s : IMAGE_SECTION_HEADER) : Prop :=
  s.VirtualAddress ≤ rva ∧ rva + 8 ≤ s.VirtualAddress + s.VirtualSize ∧ rva + 8 ≤ s.VirtualAddress + s.SizeOfRawData

instance (rva : Nat) : DecidablePred (Has rva) := fun _ => inferInstanceAs (Decidable (_ ∧ _))
instance (rva : Nat) : DecidablePred (HasSlot rva) := fun _ => inferInstanceAs (Decidable (_ ∧ _ ∧ _))

/-- The first header with a property. -/
def First (P : IMAGE_SECTION_HEADER → Prop) (shdr : List IMAGE_SECTION_HEADER) (s : IMAGE_SECTION_HEADER) : Prop :=
  ∃ before behind, shdr = before ++ s :: behind ∧ P s ∧ ∀ t ∈ before, ¬P t

/-- The position of the 64-bit slot at an address, in the section that has it. -/
def slotOf (shdr : List IMAGE_SECTION_HEADER) (rva : Nat) : Option Nat :=
  (shdr.find? fun s => HasSlot rva s).map fun s => s.PointerToRawData + (rva - s.VirtualAddress)

section
variable (data : Nat → UInt8) (base : Nat)

/-- The page of a block. -/
def pageAt (block : Nat) : Nat := word data (base + block) 4

def entryAt (block i : Nat) : Nat := word data (base + block + 8 + 2 * i) 2

def entryCount (block : Nat) : Nat := (word data (base + block + 4) 4 - 8) / 2

/-- The slots that the entries of a block name; the other entries are padding. -/
def slotsAt (shdr : List IMAGE_SECTION_HEADER) (block : Nat) (is : List Nat) : List (Option Nat) :=
  (is.filter fun i => entryType (entryAt data base block i) = 0xa).map fun i =>
    slotOf shdr (pageAt data base block + entryOffset (entryAt data base block i))

/-- The slots of the table. -/
def slots (shdr : List IMAGE_SECTION_HEADER) (bs : List Nat) : List (Option Nat) :=
  bs.flatMap fun block => slotsAt data base shdr block (List.range (entryCount data base block))

end

/-- A well-formed table of the blocks `bs` at `base` in the file: it is mapped there by the section that has its
address, its entries are padding or name slots, and these are not in the table itself. -/
structure WellFormed (h : Headers) (data : Nat → UInt8) (base : Nat) (bs : List Nat) : Prop where
  relocs : h.RELOCS_STRIPPED = false ∧ h.DYNAMIC_BASE = true ∧ h.relocs ≠ 0
  fits : h.relocs_size < 2 ^ 32
  mapped : ∃ s, First (Has h.relocs) h.shdr s ∧ (base : Int) = (h.relocs + s.shift) % 2 ^ 32
  blocks : Blocks data base h.relocs_size 0 bs
  types : ∀ block ∈ bs, ∀ i < entryCount data base block,
    entryType (entryAt data base block i) = 0 ∨ entryType (entryAt data base block i) = 0xa
  apart : ∀ p, some p ∈ slots data base h.shdr bs → p + 8 ≤ base ∨ base + h.relocs_size ≤ p

/-- The image is rebased: without a read outside of the table, each slot is added to once, and nothing else is
changed. -/
structure Rebased (h : Headers) (delta : Int) (data : Nat → UInt8) (base : Nat) (bs : List Nat) (s : Rebase) : Prop where
  reads : ∀ r ∈ s.reads, r.1 + r.2 ≤ h.relocs_size
  writes : delta ≠ 0 → s.writes.map some = slots data base h.shdr bs
  image : s.data = s.writes.foldl (add64 delta) data
  frame : ∀ q, (∀ p, some p ∈ slots data base h.shdr bs → q < p ∨ p + 8 ≤ q) → s.data q = data q

/-- A page that is not the first of the image and a slot in it are in sections, and these are moved by the same
distance, the page to a position of 32 bits. -/
def InPlace (shdr : List IMAGE_SECTION_HEADER) (page offset : Nat) : Prop :=
  page ≠ 0 ∧ ∃ s t, First (Has page) shdr s ∧ First (HasSlot (page + offset)) shdr t ∧
    page + t.shift = (page + s.shift) % 2 ^ 32

/-- There is nothing to add, no table, or a table with room for a block and its slots moved as far as their pages. -/
def Relocatable (h : Headers) (delta : Int) (data : Nat → UInt8) (base : Nat) (bs : List Nat) : Prop :=
  delta = 0 ∨ h.relocs_size = 0 ∨ 8 ≤ h.relocs_size ∧
    ∀ block ∈ bs, ∀ i < entryCount data base block, entryType (entryAt data base block i) = 0xa →
      InPlace h.shdr (pageAt data base block) (entryOffset (entryAt data base block i))

/-! ### Addresses and positions -/

theorem find_eq_some_iff {P : IMAGE_SECTION_HEADER → Prop} [DecidablePred P] {shdr : List IMAGE_SECTION_HEADER}
    {s : IMAGE_SECTION_HEADER} : (shdr.find? fun s => P s) = some s ↔ First P shdr s := by
  rw [List.find?_eq_some_iff_append, First]
  constructor
  · rintro ⟨hs, before, behind, rfl, hbefore⟩
    exact ⟨before, behind, rfl, of_decide_eq_true hs, fun t ht => by simpa using hbefore t ht⟩
  · rintro ⟨before, behind, rfl, hs, hbefore⟩
    exact ⟨decide_eq_true hs, before, behind, rfl, fun t ht => by simpa using hbefore t ht⟩

theorem findPEData_eq_some_iff {shdr : List IMAGE_SECTION_HEADER} {addr p : Nat} : findPEData shdr addr = some p ↔
    addr ≠ 0 ∧ ∃ s, First (Has addr) shdr s ∧ (p : Int) = (addr + s.shift) % 2 ^ 32 := by
  have hpos : ∀ s : IMAGE_SECTION_HEADER, s.VirtualAddress ≤ addr →
      (addr + s.shift) % 2 ^ 32 = (((s.PointerToRawData + (addr - s.VirtualAddress)) % 2 ^ 32 : Nat) : Int) := by
    intro s hs
    rw [IMAGE_SECTION_HEADER.shift]
    omega
  by_cases haddr : addr = 0
  · rw [findPEData, if_pos haddr]
    exact iff_of_false (Option.some_ne_none p).symm fun hne => hne.1 haddr
  rw [findPEData, if_neg haddr, Option.map_eq_some_iff, and_iff_right haddr]
  refine exists_congr fun s => ?_
  constructor
  · rintro ⟨hfind, rfl⟩
    have hfirst := (find_eq_some_iff (P := Has addr)).mp hfind
    obtain ⟨_, _, _, hs, _⟩ := id hfirst
    exact ⟨hfirst, (hpos s hs.1).symm⟩
  · rintro ⟨hfirst, hp⟩
    obtain ⟨_, _, _, hs, _⟩ := id hfirst
    exact ⟨(find_eq_some_iff (P := Has addr)).mpr hfirst, Int.ofNat.inj ((hpos s hs.1).symm.trans hp.symm)⟩

theorem slotOf_eq_some_iff {shdr : List IMAGE_SECTION_HEADER} {rva p : Nat} : slotOf shdr rva = some p ↔
    ∃ t, First (HasSlot rva) shdr t ∧ (p : Int) = rva + t.shift := by
  rw [slotOf, Option.map_eq_some_iff]
  refine exists_congr fun t => ?_
  rw [find_eq_some_iff]
  refine and_congr_right fun ⟨_, _, _, ht, _⟩ => ?_
  have hle := ht.1
  rw [IMAGE_SECTION_HEADER.shift]
  omega

/-- The slots of a block are where the lookup of its page tells. -/
def Located (shdr : List IMAGE_SECTION_HEADER) (data : Nat → UInt8) (base block i : Nat) : Prop :=
  entryType (entryAt data base block i) = 0xa →
    ∃ p, findPEData shdr (pageAt data base block) = some p ∧
      slotOf shdr (pageAt data base block + entryOffset (entryAt data base block i)) =
        some (p + entryOffset (entryAt data base block i))

/-- They are there just when the sections of the page and of the slot are moved by the same distance. -/
theorem located_iff {shdr : List IMAGE_SECTION_HEADER} {data : Nat → UInt8} {base block i : Nat} :
    Located shdr data base block i ↔ (entryType (entryAt data base block i) = 0xa →
      InPlace shdr (pageAt data base block) (entryOffset (entryAt data base block i))) := by
  refine imp_congr_right fun _ => ?_
  simp only [findPEData_eq_some_iff, slotOf_eq_some_iff, InPlace]
  constructor
  · rintro ⟨p, ⟨hpage, s, hs, hp⟩, t, ht, hslot⟩
    exact ⟨hpage, s, t, hs, ht, by omega⟩
  · rintro ⟨hpage, s, t, hs, ht, heq⟩
    exact ⟨((pageAt data base block + s.shift) % 2 ^ 32).toNat, ⟨hpage, s, hs, by omega⟩, t, ht, by omega⟩

/-! ### One block -/

variable {h : Headers} {delta : Int} {data : Nat → UInt8} {base : Nat}

theorem word_congr {d d' : Nat → UInt8} {p n : Nat} (heq : ∀ q, p ≤ q → q < p + n → d q = d' q) :
    word d p n = word d' p n := by
  induction n generalizing p with
  | zero => rfl
  | succ n ih =>
      rw [word, word, heq p le_rfl (by omega), ih fun q h1 h2 => heq q (by omega) (by omega)]

theorem add64_outside {p q : Nat} (hq : q < p ∨ p + 8 ≤ q) : add64 delta data p q = data q :=
  if_neg (by omega)

theorem foldl_add64_outside {ps : List Nat} {q : Nat} (hq : ∀ p ∈ ps, q < p ∨ p + 8 ≤ q) :
    ps.foldl (add64 delta) data q = data q := by
  induction ps generalizing data with
  | nil => rfl
  | cons p ps ih =>
      obtain ⟨hp, hps⟩ := List.forall_mem_cons.mp hq
      rw [List.foldl_cons, ih hps, add64_outside hp]

/-- The loop has not changed the table. -/
def Intact (data : Nat → UInt8) (base size : Nat) (s : Rebase) : Prop :=
  ∀ q, base ≤ q → q < base + size → s.data q = data q

theorem Intact.word {size p n : Nat} {s : Rebase} (hs : Intact data base size s) (h1 : base ≤ p)
    (h2 : p + n ≤ base + size) : PE.word s.data p n = PE.word data p n :=
  word_congr fun q g1 g2 => hs q (h1.trans g1) (g2.trans_le h2)

/-- What the loop has done from `s` to `t`: it has read inside the table and added to the given slots. -/
structure Does (data : Nat → UInt8) (base size : Nat) (delta : Int) (s : Rebase) (ps : List (Option Nat)) (t : Rebase) :
    Prop where
  intact : Intact data base size t
  reads : (∀ r ∈ s.reads, r.1 + r.2 ≤ size) → ∀ r ∈ t.reads, r.1 + r.2 ≤ size
  writes : t.writes.map some = s.writes.map some ++ ps
  image : s.data = s.writes.foldl (add64 delta) data → t.data = t.writes.foldl (add64 delta) data

theorem Does.trans {size : Nat} {s t u : Rebase} {ps ps' : List (Option Nat)} (h1 : Does data base size delta s ps t)
    (h2 : Does data base size delta t ps' u) : Does data base size delta s (ps ++ ps') u :=
  ⟨h2.intact, fun hs => h2.reads (h1.reads hs),
    by rw [h2.writes, h1.writes, List.append_assoc], fun hs => h2.image (h1.image hs)⟩

theorem slotsAt_cons (shdr : List IMAGE_SECTION_HEADER) (block i : Nat) (is : List Nat) :
    slotsAt data base shdr block (i :: is) = slotsAt data base shdr block [i] ++ slotsAt data base shdr block is := by
  rw [slotsAt, slotsAt, slotsAt, ← List.map_append, ← List.filter_append]
  rfl

variable {block i : Nat} {s t : Rebase}

theorem relocateEntry_spec (delta : Int) (hs : Intact data base h.relocs_size s) (hin : block + 8 + 2 * i + 2 ≤ h.relocs_size)
    (htype : entryType (entryAt data base block i) = 0 ∨ entryType (entryAt data base block i) = 0xa)
    (hapart : ∀ p, some p ∈ slotsAt data base h.shdr block [i] → p + 8 ≤ base ∨ base + h.relocs_size ≤ p)
    (hloc : Located h.shdr data base block i) :
    ∃ t, relocateEntry delta base block (findPEData h.shdr (pageAt data base block)) s i = .ok t ∧
      Does data base h.relocs_size delta s (slotsAt data base h.shdr block [i]) t := by
  have hentry : word s.data (base + block + 8 + 2 * i) 2 = entryAt data base block i :=
    hs.word (by omega) (by omega)
  have hreads : (∀ r ∈ s.reads, r.1 + r.2 ≤ h.relocs_size) →
      ∀ r ∈ s.reads ++ [(block + 8 + 2 * i, 2)], r.1 + r.2 ≤ h.relocs_size := by
    intro hs r hr
    rcases List.mem_append.mp hr with hr | hr
    · exact hs r hr
    · obtain rfl := List.mem_singleton.mp hr
      exact hin
  unfold relocateEntry
  dsimp only
  rw [hentry]
  rcases htype with htype | htype
  · have hnone : slotsAt data base h.shdr block [i] = [] := by
      rw [slotsAt, List.filter_singleton, htype]
      rfl
    rw [if_pos htype, hnone]
    exact ⟨_, rfl, hs, hreads, (List.append_nil _).symm, fun himage => himage⟩
  · obtain ⟨p, hp, hslot⟩ := hloc htype
    have hone : slotsAt data base h.shdr block [i] = [some (p + entryOffset (entryAt data base block i))] := by
      rw [slotsAt, List.filter_singleton, htype]
      exact congrArg (fun x => [x]) hslot
    rw [hone] at hapart
    have hout := hapart _ List.mem_cons_self
    rw [if_neg (by rw [htype]; decide), if_neg (not_not.mpr htype), hp, hone]
    refine ⟨_, rfl, fun q h1 h2 => ?_, hreads, List.map_append, fun himage => ?_⟩
    · exact (add64_outside (by omega)).trans (hs q h1 h2)
    · dsimp only
      rw [List.foldl_append, ← himage]
      rfl

/-- The positions written only grow, and the place of the next block stays. -/
theorem relocateEntry_rel {block_base : Option Nat} (hrun : relocateEntry delta base block block_base s i = .ok t) :
    s.writes <+: t.writes ∧ t.bytes = s.bytes := by
  unfold relocateEntry at hrun
  dsimp only at hrun
  split_ifs at hrun
  · obtain rfl := Except.ok.inj hrun
    exact ⟨List.prefix_rfl, rfl⟩
  · cases block_base with
    | none => cases hrun
    | some p =>
        obtain rfl := Except.ok.inj hrun
        exact ⟨List.prefix_append _ _, rfl⟩

theorem relocateEntries_rel {block_base : Option Nat} {is : List Nat}
    (hrun : is.foldlM (relocateEntry delta base block block_base) s = .ok t) :
    s.writes <+: t.writes ∧ t.bytes = s.bytes := by
  refine foldlM_rel (R := fun s t : Rebase => s.writes <+: t.writes ∧ t.bytes = s.bytes)
    (fun _ => ⟨List.prefix_rfl, rfl⟩) (fun h1 h2 => ?_) (fun i _ _ _ hi => relocateEntry_rel hi) hrun
  exact ⟨h1.1.trans h2.1, h2.2.trans h1.2⟩

/-- If the position that an entry changes is the next slot of the table, the entry is located. -/
theorem relocateEntry_located {rest : List (Option Nat)} (hs : Intact data base h.relocs_size s)
    (hin : block + 8 + 2 * i + 2 ≤ h.relocs_size)
    (hrun : relocateEntry delta base block (findPEData h.shdr (pageAt data base block)) s i = .ok t)
    (hwrites : t.writes.map some <+: s.writes.map some ++ (slotsAt data base h.shdr block [i] ++ rest)) :
    Located h.shdr data base block i := by
  intro htype
  have hentry : word s.data (base + block + 8 + 2 * i) 2 = entryAt data base block i :=
    hs.word (by omega) (by omega)
  unfold relocateEntry at hrun
  dsimp only at hrun
  rw [hentry, if_neg (by rw [htype]; decide), if_neg (not_not.mpr htype)] at hrun
  have hone : slotsAt data base h.shdr block [i] =
      [slotOf h.shdr (pageAt data base block + entryOffset (entryAt data base block i))] := by
    rw [slotsAt, List.filter_singleton, htype]
    rfl
  cases hp : findPEData h.shdr (pageAt data base block) with
  | none =>
      rw [hp] at hrun
      cases hrun
  | some p =>
      rw [hp] at hrun
      obtain rfl := Except.ok.inj hrun
      rw [List.map_append, hone, List.prefix_append_right_inj] at hwrites
      obtain ⟨heq, -⟩ := List.cons_prefix_cons.mp hwrites
      exact ⟨p, rfl, heq.symm⟩

/-- What is asked of the entries of a block, but that they are located. -/
structure Entries (h : Headers) (data : Nat → UInt8) (base block : Nat) (is : List Nat) : Prop where
  inside : ∀ i ∈ is, block + 8 + 2 * i + 2 ≤ h.relocs_size
  types : ∀ i ∈ is, entryType (entryAt data base block i) = 0 ∨ entryType (entryAt data base block i) = 0xa
  apart : ∀ p, some p ∈ slotsAt data base h.shdr block is → p + 8 ≤ base ∨ base + h.relocs_size ≤ p

theorem Entries.cons {is : List Nat} (hes : Entries h data base block (i :: is)) :
    Entries h data base block [i] ∧ Entries h data base block is := by
  obtain ⟨h1, h2, h3⟩ := hes
  rw [slotsAt_cons] at h3
  refine ⟨⟨fun j hj => ?_, fun j hj => ?_, fun p hp => h3 p (List.mem_append_left _ hp)⟩,
    fun j hj => h1 j (List.mem_cons_of_mem _ hj), fun j hj => h2 j (List.mem_cons_of_mem _ hj),
    fun p hp => h3 p (List.mem_append_right _ hp)⟩
  · exact h1 j (List.mem_singleton.mp hj ▸ List.mem_cons_self)
  · exact h2 j (List.mem_singleton.mp hj ▸ List.mem_cons_self)

theorem relocateEntries_spec (delta : Int) {is : List Nat} (hs : Intact data base h.relocs_size s)
    (hes : Entries h data base block is) (hloc : ∀ i ∈ is, Located h.shdr data base block i) :
    ∃ t, is.foldlM (relocateEntry delta base block (findPEData h.shdr (pageAt data base block))) s = .ok t ∧
      Does data base h.relocs_size delta s (slotsAt data base h.shdr block is) t := by
  induction is generalizing s with
  | nil => exact ⟨s, rfl, hs, fun hr => hr, (List.append_nil _).symm, fun himage => himage⟩
  | cons i is ih =>
      obtain ⟨hi, his⟩ := hes.cons
      obtain ⟨hloc1, hloc2⟩ := List.forall_mem_cons.mp hloc
      obtain ⟨t, ht, hdoes⟩ := relocateEntry_spec delta hs (hi.inside i List.mem_cons_self) (hi.types i List.mem_cons_self)
        hi.apart hloc1
      obtain ⟨u, hu, hdoes'⟩ := ih hdoes.intact his hloc2
      refine ⟨u, ?_, ?_⟩
      · rw [List.foldlM_cons, bind_ok]
        exact ⟨t, ht, hu⟩
      · rw [slotsAt_cons]
        exact hdoes.trans hdoes'

theorem relocateEntries_located {is : List Nat} {rest : List (Option Nat)} (hs : Intact data base h.relocs_size s)
    (hes : Entries h data base block is)
    (hrun : is.foldlM (relocateEntry delta base block (findPEData h.shdr (pageAt data base block))) s = .ok t)
    (hwrites : t.writes.map some <+: s.writes.map some ++ (slotsAt data base h.shdr block is ++ rest)) :
    ∀ i ∈ is, Located h.shdr data base block i := by
  induction is generalizing s with
  | nil => exact List.forall_mem_nil _
  | cons i is ih =>
      obtain ⟨hi, his⟩ := hes.cons
      rw [List.foldlM_cons, bind_ok] at hrun
      obtain ⟨s1, h1, h2⟩ := hrun
      rw [slotsAt_cons, List.append_assoc] at hwrites
      have hprefix := ((relocateEntries_rel h2).1.map some).trans hwrites
      have hloc := relocateEntry_located hs (hi.inside i List.mem_cons_self) h1 hprefix
      obtain ⟨s1', h1', hdoes⟩ := relocateEntry_spec delta hs (hi.inside i List.mem_cons_self)
        (hi.types i List.mem_cons_self) hi.apart hloc
      obtain rfl := Except.ok.inj (h1.symm.trans h1')
      refine List.forall_mem_cons.mpr ⟨hloc, ih hdoes.intact his h2 ?_⟩
      rwa [hdoes.writes, List.append_assoc]

/-! ### All blocks -/

/-- A block of a well-formed table, and the entries behind its header. -/
structure BlockAt (h : Headers) (data : Nat → UInt8) (base block : Nat) : Prop where
  header : 8 ≤ word data (base + block + 4) 4
  size : block + word data (base + block + 4) 4 ≤ h.relocs_size
  entries : Entries h data base block (List.range (entryCount data base block))

theorem relocateBlock_eq (hfits : h.relocs_size < 2 ^ 32) (hs : Intact data base h.relocs_size s)
    (hblock : BlockAt h data base s.bytes) : relocateBlock h delta base s =
      (List.range (entryCount data base s.bytes)).foldlM
        (relocateEntry delta base s.bytes (findPEData h.shdr (pageAt data base s.bytes)))
        { s with
          bytes := s.bytes + word data (base + s.bytes + 4) 4
          reads := s.reads ++ [(s.bytes + 4, 4), (s.bytes, 4)] } := by
  obtain ⟨h1, h2, -⟩ := hblock
  have hsize : word s.data (base + s.bytes + 4) 4 = word data (base + s.bytes + 4) 4 := hs.word (by omega) (by omega)
  have hpage : word s.data (base + s.bytes) 4 = pageAt data base s.bytes := hs.word (by omega) (by omega)
  have hwrap : (s.bytes + word data (base + s.bytes + 4) 4) % 2 ^ 32 = s.bytes + word data (base + s.bytes + 4) 4 :=
    Nat.mod_eq_of_lt (by omega)
  unfold relocateBlock
  dsimp only
  rw [hsize, hpage, hwrap, if_neg (by omega)]
  rfl

theorem relocateBlock_spec (delta : Int) (hfits : h.relocs_size < 2 ^ 32) (hs : Intact data base h.relocs_size s)
    (hblock : BlockAt h data base s.bytes)
    (hloc : ∀ i < entryCount data base s.bytes, Located h.shdr data base s.bytes i) :
    ∃ t, relocateBlock h delta base s = .ok t ∧ t.bytes = s.bytes + word data (base + s.bytes + 4) 4 ∧
      Does data base h.relocs_size delta s
        (slotsAt data base h.shdr s.bytes (List.range (entryCount data base s.bytes))) t := by
  rw [relocateBlock_eq hfits hs hblock]
  obtain ⟨t, ht, hdoes⟩ := relocateEntries_spec delta (s := { s with
      bytes := s.bytes + word data (base + s.bytes + 4) 4
      reads := s.reads ++ [(s.bytes + 4, 4), (s.bytes, 4)] }) hs hblock.entries
    fun i hi => hloc i (List.mem_range.mp hi)
  refine ⟨t, ht, (relocateEntries_rel ht).2, hdoes.intact, fun hr => hdoes.reads fun r hmem => ?_, hdoes.writes,
    hdoes.image⟩
  rcases List.mem_append.mp hmem with hmem | hmem
  · exact hr r hmem
  · have h1 := hblock.header
    have h2 := hblock.size
    rcases List.mem_cons.mp hmem with rfl | hmem
    · dsimp only
      omega
    · obtain rfl := List.mem_singleton.mp hmem
      dsimp only
      omega

/-- The loop goes on as long as there is room for a header. -/
theorem relocateBlocks_guard (hsize : 8 ≤ h.relocs_size) (hfits : h.relocs_size < 2 ^ 32) (bytes : Nat) :
    bytes ≤ (h.relocs_size + 2 ^ 64 - 8) % 2 ^ 64 ↔ bytes + 8 ≤ h.relocs_size := by
  omega

theorem relocateBlocks_spec (delta : Int) (hsize : 8 ≤ h.relocs_size) (hfits : h.relocs_size < 2 ^ 32) {bs : List Nat}
    (hblocks : Blocks data base h.relocs_size s.bytes bs) (hs : Intact data base h.relocs_size s)
    (hbs : ∀ block ∈ bs, BlockAt h data base block)
    (hloc : ∀ block ∈ bs, ∀ i < entryCount data base block, Located h.shdr data base block i) :
    ∃ fuel t, relocateBlocks h delta base fuel s = some (.ok t) ∧
      Does data base h.relocs_size delta s (slots data base h.shdr bs) t := by
  generalize hbytes : s.bytes = bytes at hblocks
  induction hblocks generalizing s with
  | done hend =>
      refine ⟨1, s, ?_, hs, fun hr => hr, (List.append_nil _).symm, fun himage => himage⟩
      rw [relocateBlocks, if_neg]
      rw [relocateBlocks_guard hsize hfits, hbytes]
      omega
  | @block block bs hheader hin hrest ih =>
      subst hbytes
      obtain ⟨hb, hbs⟩ := List.forall_mem_cons.mp hbs
      obtain ⟨hl, hls⟩ := List.forall_mem_cons.mp hloc
      obtain ⟨t, ht, hbytes, hdoes⟩ := relocateBlock_spec delta hfits hs hb hl
      obtain ⟨fuel, u, hu, hdoes'⟩ := ih hdoes.intact hbs hls hbytes
      refine ⟨fuel + 1, u, ?_, hdoes.trans hdoes'⟩
      rw [relocateBlocks, if_pos, ht]
      · exact hu
      · rw [relocateBlocks_guard hsize hfits]
        omega

theorem relocateBlocks_grows {fuel : Nat} (hrun : relocateBlocks h delta base fuel s = some (.ok t)) :
    s.writes <+: t.writes := by
  induction fuel generalizing s with
  | zero => cases hrun
  | succ fuel ih =>
      rw [relocateBlocks] at hrun
      split_ifs at hrun
      · cases hblock : relocateBlock h delta base s with
        | error e =>
            rw [hblock] at hrun
            cases hrun
        | ok s1 =>
            rw [hblock] at hrun
            unfold relocateBlock at hblock
            dsimp only at hblock
            split_ifs at hblock
            exact (relocateEntries_rel hblock).1.trans (ih hrun)
      · obtain rfl := Except.ok.inj (Option.some.inj hrun)
        exact List.prefix_rfl

theorem relocateBlocks_located (hsize : 8 ≤ h.relocs_size) (hfits : h.relocs_size < 2 ^ 32) {bs : List Nat}
    (hblocks : Blocks data base h.relocs_size s.bytes bs) (hs : Intact data base h.relocs_size s)
    (hbs : ∀ block ∈ bs, BlockAt h data base block) {fuel : Nat}
    (hrun : relocateBlocks h delta base fuel s = some (.ok t))
    (hwrites : t.writes.map some <+: s.writes.map some ++ slots data base h.shdr bs) :
    ∀ block ∈ bs, ∀ i < entryCount data base block, Located h.shdr data base block i := by
  generalize hbytes : s.bytes = bytes at hblocks
  induction hblocks generalizing s fuel with
  | done hend => exact List.forall_mem_nil _
  | @block block bs hheader hin hrest ih =>
      subst hbytes
      obtain ⟨hb, hbs⟩ := List.forall_mem_cons.mp hbs
      cases fuel with
      | zero => cases hrun
      | succ fuel =>
          have hguard : s.bytes ≤ (h.relocs_size + 2 ^ 64 - 8) % 2 ^ 64 := by omega
          rw [relocateBlocks, if_pos hguard] at hrun
          cases hblock : relocateBlock h delta base s with
          | error e =>
              rw [hblock] at hrun
              cases hrun
          | ok s1 =>
              rw [hblock] at hrun
              have hprefix := (relocateBlocks_grows hrun).map some |>.trans hwrites
              have hblock' := hblock
              rw [relocateBlock_eq hfits hs hb] at hblock'
              have hs' : Intact data base h.relocs_size { s with
                  bytes := s.bytes + word data (base + s.bytes + 4) 4
                  reads := s.reads ++ [(s.bytes + 4, 4), (s.bytes, 4)] } := hs
              have hl := relocateEntries_located hs' hb.entries hblock' hprefix
              have hl' : ∀ i < entryCount data base s.bytes, Located h.shdr data base s.bytes i :=
                fun i hi => hl i (List.mem_range.mpr hi)
              obtain ⟨s1', h1', hbytes, hdoes⟩ := relocateBlock_spec delta hfits hs hb hl'
              obtain rfl := Except.ok.inj (hblock.symm.trans h1')
              refine List.forall_mem_cons.mpr ⟨hl', ih hdoes.intact hbs hrun ?_ hbytes⟩
              rw [hdoes.writes, List.append_assoc]
              exact hwrites

theorem Blocks.mem {size start : Nat} {bs : List Nat} (hblocks : Blocks data base size start bs) {block : Nat}
    (hblock : block ∈ bs) :
    8 ≤ word data (base + block + 4) 4 ∧ block + word data (base + block + 4) 4 ≤ size := by
  induction hblocks with
  | done _ => cases hblock
  | block hheader hsize _ ih =>
      rcases List.mem_cons.mp hblock with rfl | hblock
      · exact ⟨hheader, hsize⟩
      · exact ih hblock

/-- Below the size of a header there is no block. -/
theorem Blocks.eq_nil {size start : Nat} {bs : List Nat} (hblocks : Blocks data base size start bs) (hsize : size < 8) :
    bs = [] := by
  cases hblocks with
  | done _ => rfl
  | block hheader hin _ => omega

theorem WellFormed.blockAt {bs : List Nat} (hwf : WellFormed h data base bs) {block : Nat} (hblock : block ∈ bs) :
    BlockAt h data base block := by
  obtain ⟨h1, h2⟩ := hwf.blocks.mem hblock
  refine ⟨h1, h2, fun i hi => ?_, fun i hi => hwf.types block hblock i (List.mem_range.mp hi), fun p hp => ?_⟩
  · have hlt := List.mem_range.mp hi
    rw [entryCount] at hlt
    omega
  · exact hwf.apart p (List.mem_flatMap.mpr ⟨block, hblock, hp⟩)

theorem word_lt (d : Nat → UInt8) (p n : Nat) : word d p n < 2 ^ (8 * n) := by
  induction n generalizing p with
  | zero => exact Nat.one_pos
  | succ n ih =>
      have hbyte := (d p).toNat_lt
      have hrest := ih (p + 1)
      have hpow : 2 ^ (8 * (n + 1)) = 2 ^ 8 * 2 ^ (8 * n) := by
        rw [Nat.mul_succ, Nat.pow_add, Nat.mul_comm]
      rw [word, hpow]
      omega

/-- In a table without room for a header one is read anyway, and it is refused. -/
theorem relocateBlocks_small (hpos : 0 < h.relocs_size) (hsize : h.relocs_size < 8) (hbytes : s.bytes = 0) (fuel : Nat) :
    relocateBlocks h delta base (fuel + 1) s = some (.error .blockSize) := by
  have hguard : s.bytes ≤ (h.relocs_size + 2 ^ 64 - 8) % 2 ^ 64 := by omega
  have hblock : relocateBlock h delta base s = .error .blockSize := by
    have hlt := word_lt s.data (base + s.bytes + 4) 4
    unfold relocateBlock
    dsimp only
    rw [hbytes] at hlt ⊢
    rw [if_pos]
    omega
  rw [relocateBlocks, if_pos hguard, hblock]

/-- Nothing is done to the image. -/
theorem rebased_refl {bs : List Nat} (hslots : delta ≠ 0 → slots data base h.shdr bs = []) :
    Rebased h delta data base bs ⟨data, 0, [], []⟩ :=
  ⟨List.forall_mem_nil _, fun hdelta => (hslots hdelta).symm, rfl, fun _ _ => rfl⟩

theorem WellFormed.rebase_eq {bs : List Nat} (hwf : WellFormed h data base bs) (hdelta : delta ≠ 0)
    (hpos : 0 < h.relocs_size) (fuel : Nat) :
    rebase h delta data fuel = relocateBlocks h delta base fuel ⟨data, 0, [], []⟩ := by
  obtain ⟨h1, h2, h3⟩ := hwf.relocs
  unfold rebase
  dsimp only
  rw [if_pos ⟨hdelta, by simp [haveRelocs, h1, h2, h3, hpos]⟩, findPEData_eq_some_iff.mpr ⟨h3, hwf.mapped⟩]

/-- **Rebasing.** -/
theorem rebase_iff {bs : List Nat} (hwf : WellFormed h data base bs) :
    (∃ fuel s, rebase h delta data fuel = some (.ok s) ∧ Rebased h delta data base bs s) ↔
      Relocatable h delta data base bs := by
  by_cases hdelta : delta = 0
  · refine iff_of_true ⟨0, _, if_neg ?_, rebased_refl fun hne => absurd hdelta hne⟩ (Or.inl hdelta)
    exact fun hrun => hrun.1 hdelta
  by_cases hzero : h.relocs_size = 0
  · have hnil : bs = [] := hwf.blocks.eq_nil (by omega)
    refine iff_of_true ⟨0, _, if_neg ?_, rebased_refl fun _ => by rw [hnil]; rfl⟩ (Or.inr (Or.inl hzero))
    simp [haveRelocs, hzero]
  · have hrun := hwf.rebase_eq hdelta (Nat.pos_of_ne_zero hzero)
    have hs : Intact data base h.relocs_size ⟨data, 0, [], []⟩ := fun _ _ _ => rfl
    constructor
    · rintro ⟨fuel, t, ht, hrebased⟩
      rw [hrun] at ht
      rcases Nat.lt_or_ge h.relocs_size 8 with hlt | hge
      · cases fuel with
        | zero => cases ht
        | succ fuel =>
            rw [relocateBlocks_small (Nat.pos_of_ne_zero hzero) hlt rfl] at ht
            cases ht
      · have hloc := relocateBlocks_located hge hwf.fits hwf.blocks hs (fun block hblock => hwf.blockAt hblock) ht
          (by rw [hrebased.writes hdelta]; exact List.prefix_rfl)
        exact Or.inr (Or.inr ⟨hge, fun block hblock i hi => located_iff.mp (hloc block hblock i hi)⟩)
    · rintro (hd | hz | ⟨hge, hloc⟩)
      · exact absurd hd hdelta
      · exact absurd hz hzero
      · obtain ⟨fuel, t, ht, hdoes⟩ := relocateBlocks_spec delta hge hwf.fits hwf.blocks hs
          (fun block hblock => hwf.blockAt hblock) fun block hblock i hi => located_iff.mpr (hloc block hblock i hi)
        have hwrites : t.writes.map some = slots data base h.shdr bs := hdoes.writes
        have himage := hdoes.image rfl
        refine ⟨fuel, t, (hrun fuel).trans ht, hdoes.reads (List.forall_mem_nil _), fun _ => hwrites, himage,
          fun q hq => ?_⟩
        rw [himage]
        refine foldl_add64_outside fun p hp => hq p ?_
        rw [← hwrites]
        exact List.mem_map_of_mem hp

/-- A section of code with one slot at 0x1010, and a section with the relocation table. -/
def slotHeaders (relocs_size : Nat) : Headers where
  shdr := [⟨0x1000, 0x100, 0x400, 0x200⟩, ⟨0x2000, 0x100, 0x600, 0x200⟩]
  RELOCS_STRIPPED := false
  DYNAMIC_BASE := true
  relocs := 0x2000
  relocs_size := relocs_size

/-- The table has one block, with an entry and with padding. -/
def slotData (q : Nat) : UInt8 := byteAt [0, 0x10, 0, 0, 0x0C, 0, 0, 0, 0x10, 0xA0, 0, 0] (q - 0x600)

theorem slots_slotData : slots slotData 0x600 (slotHeaders 12).shdr [0] = [some 0x410] := by decide

theorem wellFormed_slotHeaders : WellFormed (slotHeaders 12) slotData 0x600 [0] := by
  refine ⟨by decide, by decide, ⟨⟨0x2000, 0x100, 0x600, 0x200⟩, find_eq_some_iff.mp (by decide), by decide⟩, ?_, ?_,
    fun p hp => ?_⟩
  · exact .block (by decide) (by decide) (.done (by decide))
  · intro block hblock
    obtain rfl := List.mem_singleton.mp hblock
    decide
  · rw [slots_slotData] at hp
    obtain rfl := Option.some.inj (List.mem_singleton.mp hp)
    decide

theorem rebase_iff_slot : (∃ fuel s, rebase (slotHeaders 12) 0x1000 slotData fuel = some (.ok s) ∧
      Rebased (slotHeaders 12) 0x1000 slotData 0x600 [0] s) ↔ Relocatable (slotHeaders 12) 0x1000 slotData 0x600 [0] :=
  rebase_iff wellFormed_slotHeaders

theorem wellFormed_small : WellFormed (slotHeaders 4) slotData 0x600 [] := by
  refine ⟨by decide, by decide, ⟨⟨0x2000, 0x100, 0x600, 0x200⟩, find_eq_some_iff.mp (by decide), by decide⟩,
    .done (by decide), List.forall_mem_nil _, fun p hp => ?_⟩
  cases hp

/-- Four bytes are a table without a block. The loop reads the eight bytes of a header, and refuses the block. -/
theorem rebase_small : WellFormed (slotHeaders 4) slotData 0x600 [] ∧
    rebase (slotHeaders 4) 0x1000 slotData 1 = some (.error .blockSize) ∧
    ¬∃ fuel s, rebase (slotHeaders 4) 0x1000 slotData fuel = some (.ok s) ∧
      Rebased (slotHeaders 4) 0x1000 slotData 0x600 [] s := by
  have hrun : ∀ fuel, rebase (slotHeaders 4) 0x1000 slotData fuel =
      relocateBlocks (slotHeaders 4) 0x1000 0x600 fuel ⟨slotData, 0, [], []⟩ :=
    wellFormed_small.rebase_eq (by decide) (by decide)
  have hsmall : ∀ fuel, relocateBlocks (slotHeaders 4) 0x1000 0x600 (fuel + 1) ⟨slotData, 0, [], []⟩ =
      some (.error .blockSize) := relocateBlocks_small (by decide) (by decide) rfl
  refine ⟨wellFormed_small, (hrun 1).trans (hsmall 0), ?_⟩
  rintro ⟨fuel, s, h, -⟩
  cases fuel with
  | zero =>
      rw [hrun] at h
      cases h
  | succ fuel =>
      rw [hrun, hsmall] at h
      cases h

end PE
end E9Patch
