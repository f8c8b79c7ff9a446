import E9Patch.AnalysisBounds

/-!
The end record of a ZIP archive at the end of a file. Four searches look for it backwards: those of `e9ape.c`
(`findZipEnd`), of `detect_ape` (`findZip`), of `e9polyglot.c` and of `e9builtin.c`. The limit of the first is
signed, that of the others wraps around for a small file. `e9_builtin_zip_open` goes on and lists the central
directory; memory for it is there.
-/

namespace E9Patch
open Reader

variable {d : Block}

/-! ### The other two searches -/

/-- `for (size_t i = size - 22; i > 0 && i > size - 65536; i--)` up to the signature. -/
def searchEnd (d : Block) : Nat → Nat → Except Reader.Fault (Option Nat)
  | 0, _ => .error .diverges
  | fuel + 1, i =>
    if i > 0 ∧ (i : Int) > ptr (d.size - 65536) then do
      let magic ← memcmp d i ZIP_END_MAGIC
      if magic then .ok (some i) else searchEnd d fuel (i - 1)
    else .ok none

/-- `e9_ape_parse` of `e9polyglot.c`: the part that looks for the archive. -/
def polyglotZip (d : Block) (layout : ApeLayout) : Except Reader.Fault ApeLayout := do
  match ← searchEnd d (d.size + 1) (d.size - 22) with
  | none => .ok layout
  | some i =>
    let entries ← read d (i + 10) 2
    let cd_offset ← read d (i + 16) 4
    let start ← zipStart d cd_offset (d.size + 1) 0
    .ok { layout with
      zipos_end := i + 22, zipos_num_entries := entries, zipos_central_dir := cd_offset, zipos_start := start }

/-- An entry of the central directory. -/
structure ZipEntry where
  name : List UInt8
  offset : Nat
  comp_size : Nat
  uncomp_size : Nat
  method : Nat
  crc32 : Nat
  deriving DecidableEq, Repr

/-- What `calloc` leaves. -/
def ZipEntry.zero : ZipEntry := ⟨[], 0, 0, 0, 0, 0⟩

structure ZipArchive where
  entries : List ZipEntry
  num_entries : Nat
  central_dir_offset : Nat
  central_dir_size : Nat
  deriving DecidableEq, Repr

/-- The name of the entry at `pos`: at most 255 characters of it. -/
def zipName (d : Block) (pos name_len : Nat) : Except Reader.Fault (List UInt8) :=
  if name_len > 0 ∧ pos + 46 + name_len ≤ d.size then copy d (pos + 46) (min name_len 255) else .ok []

/-- The loop over the entries from `pos` on, of which `n` are left. -/
def zipEntries (d : Block) : Nat → Nat → Except Reader.Fault (List ZipEntry)
  | 0, _ => .ok []
  | n + 1, pos =>
    if pos + 46 ≤ d.size then do
      let magic ← memcmp d pos ZIP_CENTRAL_MAGIC
      if !magic then .ok (List.replicate (n + 1) ZipEntry.zero)
      else do
        let method ← read d (pos + 10) 2
        let crc32 ← read d (pos + 16) 4
        let comp_size ← read d (pos + 20) 4
        let uncomp_size ← read d (pos + 24) 4
        let name_len ← read d (pos + 28) 2
        let extra_len ← read d (pos + 30) 2
        let comment_len ← read d (pos + 32) 2
        let offset ← read d (pos + 42) 4
        let name ← zipName d pos name_len
        let entries ← zipEntries d n (pos + (46 + name_len + extra_len + comment_len))
        .ok (⟨name, offset, comp_size, uncomp_size, method, crc32⟩ :: entries)
    else .ok (List.replicate (n + 1) ZipEntry.zero)

/-- Open the archive at the end of a file; `none` for a null pointer. -/
def e9_builtin_zip_open (d : Block) : Except Reader.Fault (Option ZipArchive) :=
  if d.size < 22 then .ok none
  else do
    match ← searchEnd d (d.size + 1) (d.size - 22) with
    | none => .ok none
    | some eocd =>
      let num_entries ← read d (eocd + 10) 2
      let cd_size ← read d (eocd + 12) 4
      let cd_offset ← read d (eocd + 16) 4
      let entries ← zipEntries d num_entries cd_offset
      .ok (some ⟨entries, num_entries, cd_offset, cd_size⟩)

/-! ### Archives -/

/-- The entry of the central directory at `pos`. -/
def memberAt (d : Block) (pos : Nat) : ZipEntry :=
  ⟨d.slice (pos + 46) (d.word (pos + 28) 2), d.word (pos + 42) 4, d.word (pos + 20) 4, d.word (pos + 24) 4,
    d.word (pos + 10) 2, d.word (pos + 16) 4⟩

def memberEnd (d : Block) (pos : Nat) : Nat :=
  pos + (46 + d.word (pos + 28) 2 + d.word (pos + 30) 2 + d.word (pos + 32) 2)

/-- There are `n` entries from `pos` up to `fin`. -/
def DirectoryAt (d : Block) : Nat → Nat → Nat → Prop
  | 0, pos, fin => pos = fin
  | n + 1, pos, fin => d.holds pos ZIP_CENTRAL_MAGIC = true ∧ memberEnd d pos ≤ fin ∧ DirectoryAt d n (memberEnd d pos) fin

/-- The `n` entries from `pos` on. -/
def membersFrom (d : Block) : Nat → Nat → List ZipEntry
  | 0, _ => []
  | n + 1, pos => memberAt d pos :: membersFrom d n (memberEnd d pos)

/-- The file ends with an archive whose end record is at `e`: behind it is its comment, and no later signature. -/
structure EndsWithZip (d : Block) (e : Nat) : Prop where
  signature : d.holds e ZIP_END_MAGIC = true
  comment : e + 22 + d.word (e + 20) 2 = d.size
  last : ∀ i : Nat, e < i → i + 4 ≤ d.size → d.holds i ZIP_END_MAGIC = false

/-- The central directory is before the end record, where this says. -/
def HasDirectory (d : Block) (e : Nat) : Prop := ∃ fin ≤ e, DirectoryAt d (d.word (e + 10) 2) (d.word (e + 16) 4) fin

/-- The entries of the archive with the end record at `e`. -/
def archiveMembers (d : Block) (e : Nat) : List ZipEntry := membersFrom d (d.word (e + 10) 2) (d.word (e + 16) 4)

/-- The four searches find the record, where nothing was found before. -/
structure SearchesFind (d : Block) (e : Nat) : Prop where
  ape : ∀ info : APEInfo, info.zipos_end = 0 → ∃ info', findZipEnd d (d.size + 1) (d.size - 22) info = .ok info' ∧
    info'.zipos_end = e + 22 ∧ info'.zipos_num_entries = d.word (e + 10) 2 ∧ info'.zipos_central_dir = d.word (e + 16) 4
  polyglot : ∀ layout : ApeLayout, layout.zipos_end = 0 → ∃ layout', polyglotZip d layout = .ok layout' ∧
    layout'.zipos_end = e + 22 ∧ layout'.zipos_num_entries = d.word (e + 10) 2 ∧
    layout'.zipos_central_dir = d.word (e + 16) 4
  detect : ∀ bin : E9Binary, bin.ape.zipos_end = 0 → ∃ bin', findZip d (d.size + 1) (d.size - 22) bin = .ok bin' ∧
    bin'.ape.zipos_end = e + 22 ∧ bin'.ape.zipos_num_entries = d.word (e + 10) 2 ∧
    bin'.ape.zipos_central_dir = d.word (e + 16) 4
  opened : searchEnd d (d.size + 1) (d.size - 22) = .ok (some e)

/-- The record is found, and the archive is listed. -/
structure FourFind (d : Block) (e : Nat) : Prop extends SearchesFind d e where
  lists : ∃ zip, e9_builtin_zip_open d = .ok (some zip) ∧ zip.central_dir_offset = d.word (e + 16) 4 ∧
    zip.entries = archiveMembers d e

/-! ### The searches -/

variable {e : Nat}

theorem EndsWithZip.size_eq (h : EndsWithZip d e) : e + 22 ≤ d.size := by
  have := h.comment
  omega

theorem has_end {i : Nat} (hi : i + 22 ≤ d.size) : d.Has i ZIP_END_MAGIC.length :=
  has_of_le (by omega) (by rw [ZIP_END_MAGIC_length]; omega)

/-- A search that starts behind the record goes down to it, as long as the limit is below it. -/
theorem searchEnd_eq (h : EndsWithZip d e) {fuel i : Nat} (hfuel : i < fuel) (hei : e ≤ i) (hi : i + 22 ≤ d.size) :
    searchEnd d fuel i = .ok (if 0 < e ∧ ptr (d.size - 65536) < (e : Int) then some e else none) := by
  induction fuel generalizing i with
  | zero => omega
  | succ fuel ih =>
      unfold searchEnd
      split
      · rename_i hloop
        rw [memcmp_ok (has_end hi), ok_bind]
        by_cases hie : i = e
        · rw [hie, h.signature, if_pos rfl]
          rw [hie] at hloop
          exact congrArg Except.ok (if_pos hloop).symm
        · rw [h.last i (by omega) (by omega), if_neg (by decide)]
          exact ih (by omega) (by omega) (by omega)
      · rename_i hloop
        refine congrArg Except.ok (if_neg ?_).symm
        omega

/-- What `detect_ape` makes of the record at `i`. -/
def fillZip (d : Block) (i : Nat) (bin : E9Binary) : Except Reader.Fault E9Binary := do
  let entries ← read d (i + 10) 2
  let central ← read d (i + 16) 4
  let start ← zipStart d central (d.size + 1) 0
  .ok { bin with
    ape := { bin.ape with
      zipos_end := i + 22, zipos_num_entries := entries, zipos_central_dir := central, zipos_start := start } }

/-- Where a search of the others stops, that of `detect_ape` fills in what is there. -/
theorem findZip_eq {fuel i : Nat} (hi : i + 22 ≤ d.size) (bin : E9Binary) :
    findZip d fuel i bin = (searchEnd d fuel i >>= fun found =>
      match found with
      | none => .ok bin
      | some i => fillZip d i bin) := by
  induction fuel generalizing i with
  | zero => rfl
  | succ fuel ih =>
      unfold findZip searchEnd
      split
      · rw [memcmp_ok (has_end hi), ok_bind, ok_bind]
        split
        · rfl
        · exact ih (by omega)
      · rfl

/-- The limit of `e9ape.c` is signed: the record is found unless it is the first thing in the file or too far
from its end. -/
theorem findZipEnd_iff (h : EndsWithZip d e) {info : APEInfo} (hinfo : info.zipos_end = 0) {fuel i : Nat}
    (hfuel : i < fuel) (hei : e ≤ i) (hi : i + 22 ≤ d.size) :
    (∃ info', findZipEnd d fuel i info = .ok info' ∧ info'.zipos_end = e + 22 ∧
      info'.zipos_num_entries = d.word (e + 10) 2 ∧ info'.zipos_central_dir = d.word (e + 16) 4) ↔
      0 < e ∧ d.size < e + 65536 := by
  induction fuel generalizing i with
  | zero => omega
  | succ fuel ih =>
      unfold findZipEnd
      split
      · rename_i hloop
        rw [memcmp_ok (has_end hi), ok_bind]
        by_cases hie : i = e
        · obtain ⟨start, hstart⟩ := findLocal_ok (d.word (i + 16) 4)
            (show (d.size : Int) < (d.size + 1 : Nat) + 0 by omega) (by omega) (by omega)
          rw [hie] at hstart
          rw [hie, h.signature, if_pos rfl, read_ok (has_of_le (by omega) (by omega)), ok_bind,
            read_ok (has_of_le (by omega) (by omega)), ok_bind, hstart, ok_bind]
          exact iff_of_true ⟨_, rfl, rfl, rfl, rfl⟩ (by omega)
        · rw [h.last i (by omega) (by omega), if_neg (by decide)]
          have hpred : ((i : Int) - 1) = ((i - 1 : Nat) : Int) := by omega
          rw [hpred]
          exact ih (by omega) (by omega) (by omega)
      · rename_i hloop
        refine iff_of_false ?_ (by omega)
        rintro ⟨info', heq, hend, -⟩
        cases heq
        omega

/-- The others find it only in a file of at least 64 KiB. -/
theorem limit_iff : (0 < e ∧ ptr (d.size - 65536) < (e : Int)) ∧ e + 22 ≤ d.size ↔
    (65536 ≤ d.size ∧ 0 < e ∧ d.size < e + 65536) ∧ e + 22 ≤ d.size := by
  have hsize := d.size_lt
  unfold ptr
  omega

/-! ### The central directory -/

theorem zipName_eq {pos name_len : Nat} (h : pos + 46 + name_len ≤ d.size) :
    zipName d pos name_len = .ok (d.slice (pos + 46) (min name_len 255)) := by
  unfold zipName
  split
  · exact copy_ok (has_of_le (by omega) (by omega))
  · rename_i hnone
    have hzero : name_len = 0 := by omega
    rw [hzero]
    rfl

/-- The entry that is listed for the one at `pos`: its name is cut. -/
def listedAt (d : Block) (pos : Nat) : ZipEntry :=
  { memberAt d pos with name := d.slice (pos + 46) (min (d.word (pos + 28) 2) 255) }

/-- The entries that are listed for the `n` from `pos` on. -/
def listedFrom (d : Block) : Nat → Nat → List ZipEntry
  | 0, _ => []
  | n + 1, pos => listedAt d pos :: listedFrom d n (memberEnd d pos)

theorem zipEntries_eq {n pos fin : Nat} (h : DirectoryAt d n pos fin) (hfin : fin ≤ d.size) :
    zipEntries d n pos = .ok (listedFrom d n pos) := by
  induction n generalizing pos with
  | zero => rfl
  | succ n ih =>
      obtain ⟨hmagic, hend, hrest⟩ := h
      have hin := Nat.le_trans hend hfin
      have hrest := ih hrest
      unfold memberEnd at hin
      unfold zipEntries
      have hread : ∀ (off : Int) (k : Nat), 0 ≤ off → off + k ≤ 46 → read d (pos + off) k = .ok (d.word (pos + off) k) :=
        fun off k h0 hk => read_ok (has_of_le (by omega) (by omega))
      rw [if_pos (by omega), memcmp_ok (has_of_le (by omega) (by rw [ZIP_CENTRAL_MAGIC_length]; omega)), ok_bind, hmagic,
        if_neg (by decide), hread 10 2 (by decide) (by decide), ok_bind, hread 16 4 (by decide) (by decide), ok_bind, hread 20 4 (by decide) (by decide), ok_bind,
        hread 24 4 (by decide) (by decide), ok_bind, hread 28 2 (by decide) (by decide), ok_bind, hread 30 2 (by decide) (by decide), ok_bind,
        hread 32 2 (by decide) (by decide), ok_bind, hread 42 4 (by decide) (by decide), ok_bind, zipName_eq (by omega), ok_bind]
      rw [show pos + (46 + d.word (pos + 28) 2 + d.word (pos + 30) 2 + d.word (pos + 32) 2) = memberEnd d pos from rfl, hrest]
      rfl

theorem slice_length (d : Block) (off : Int) (n : Nat) : (d.slice off n).length = n := by
  simp [Block.slice]

/-- The listing is exact unless a name is longer than there is room for. -/
theorem listedFrom_iff {n pos : Nat} :
    listedFrom d n pos = membersFrom d n pos ↔ ∀ m ∈ membersFrom d n pos, m.name.length ≤ 255 := by
  induction n generalizing pos with
  | zero => exact iff_of_true rfl nofun
  | succ n ih =>
      have hhead : listedAt d pos = memberAt d pos ↔ (memberAt d pos).name.length ≤ 255 := by
        have hlen : (memberAt d pos).name.length = d.word (pos + 28) 2 := slice_length d _ _
        rw [hlen]
        constructor
        · intro heq
          have hname := congrArg (fun m : ZipEntry => m.name.length) heq
          simp only [listedAt, memberAt, slice_length] at hname
          omega
        · intro hle
          unfold listedAt
          rw [Nat.min_eq_left hle]
          rfl
      unfold listedFrom membersFrom
      rw [List.cons_eq_cons, hhead, ih, List.forall_mem_cons]

/-! ### All four -/

/-- The four searches agree on the record exactly if the file has at least 64 KiB and the record is less than 64 KiB
from its end. -/
theorem searchesFind_iff (h : EndsWithZip d e) : SearchesFind d e ↔ 65536 ≤ d.size ∧ d.size < e + 65536 := by
  have hsize := h.size_eq
  have hsearch := searchEnd_eq h (show d.size - 22 < d.size + 1 by omega) (by omega) (by omega)
  have hread : ∀ (off : Int) (k : Nat), 0 ≤ off → off + k ≤ 22 → read d (e + off) k = .ok (d.word (e + off) k) :=
    fun off k h0 hk => read_ok (has_of_le (by omega) (by omega))
  have hlimit := @limit_iff d e
  by_cases hfound : 0 < e ∧ ptr (d.size - 65536) < (e : Int)
  · have hbig : 65536 ≤ d.size ∧ 0 < e ∧ d.size < e + 65536 := (hlimit.mp ⟨hfound, hsize⟩).1
    rw [if_pos hfound] at hsearch
    obtain ⟨start, hstart⟩ := @zipStart_ok d (d.word (e + 16) 4) (d.size + 1) 0 (by omega) (by omega)
    refine iff_of_true ⟨?_, ?_, ?_, hsearch⟩ ⟨hbig.1, hbig.2.2⟩
    · intro info hinfo
      have hcast : (d.size : Int) - 22 = ((d.size - 22 : Nat) : Int) := by omega
      rw [hcast]
      exact (findZipEnd_iff h hinfo (by omega) (by omega) (by omega)).mpr hbig.2
    · intro layout _
      unfold polyglotZip
      rw [hsearch, ok_bind]
      dsimp only
      rw [hread 10 2 (by decide) (by decide), ok_bind, hread 16 4 (by decide) (by decide), ok_bind, hstart, ok_bind]
      exact ⟨_, rfl, rfl, rfl, rfl⟩
    · intro bin _
      rw [findZip_eq (by omega), hsearch, ok_bind]
      dsimp only
      unfold fillZip
      rw [hread 10 2 (by decide) (by decide), ok_bind, hread 16 4 (by decide) (by decide), ok_bind, hstart, ok_bind]
      exact ⟨_, rfl, rfl, rfl, rfl⟩
  · refine iff_of_false (fun hfind => ?_) ?_
    · rw [if_neg hfound] at hsearch
      cases hsearch.symm.trans hfind.opened
    · rintro ⟨hbig, hnear⟩
      exact hfound (hlimit.mpr ⟨⟨hbig, by omega, hnear⟩, hsize⟩).1

/-- Where the search comes to the record, the archive is listed but for the long names. -/
theorem zip_open_eq (h : EndsWithZip d e) (hdirectory : HasDirectory d e)
    (hsearch : searchEnd d (d.size + 1) (d.size - 22) = .ok (some e)) :
    e9_builtin_zip_open d = .ok (some ⟨listedFrom d (d.word (e + 10) 2) (d.word (e + 16) 4),
      d.word (e + 10) 2, d.word (e + 16) 4, d.word (e + 12) 4⟩) := by
  have hsize := h.size_eq
  obtain ⟨fin, hfin, hdirectory⟩ := hdirectory
  have hread : ∀ (off : Int) (k : Nat), 0 ≤ off → off + k ≤ 22 → read d (e + off) k = .ok (d.word (e + off) k) :=
    fun off k h0 hk => read_ok (has_of_le (by omega) (by omega))
  unfold e9_builtin_zip_open
  rw [if_neg (by omega), hsearch, ok_bind]
  dsimp only
  rw [hread 10 2 (by decide) (by decide), ok_bind, hread 12 4 (by decide) (by decide), ok_bind,
    hread 16 4 (by decide) (by decide), ok_bind, zipEntries_eq hdirectory (by omega), ok_bind]

/-- The four searches agree on the record exactly if the file has at least 64 KiB and the record is less than 64 KiB
from its end. A central directory is then listed, unless a name is longer than 255 characters. -/
theorem zip_end_found_iff (h : EndsWithZip d e) :
    (SearchesFind d e ↔ 65536 ≤ d.size ∧ d.size < e + 65536) ∧
    (HasDirectory d e → (FourFind d e ↔
      65536 ≤ d.size ∧ d.size < e + 65536 ∧ ∀ m ∈ archiveMembers d e, m.name.length ≤ 255)) := by
  have hsearches := searchesFind_iff h
  refine ⟨hsearches, fun hdirectory => ⟨fun hfour => ?_, fun ⟨hbig, hnear, hnames⟩ => ?_⟩⟩
  · obtain ⟨hbig, hnear⟩ := hsearches.mp hfour.toSearchesFind
    obtain ⟨zip, heq, -, hlist⟩ := hfour.lists
    rw [zip_open_eq h hdirectory hfour.opened] at heq
    cases heq
    exact ⟨hbig, hnear, listedFrom_iff.mp hlist⟩
  · have hfind := hsearches.mpr ⟨hbig, hnear⟩
    exact ⟨hfind, _, zip_open_eq h hdirectory hfind.opened, rfl, listedFrom_iff.mpr hnames⟩

/-! ### Sample archives -/

/-- Bytes behind zero bytes. -/
def zeroPadded (n : Fin (2 ^ 20)) (tail : { s : List UInt8 // s.length < 2 ^ 20 }) : Block :=
  ⟨List.replicate n 0 ++ tail.val, by
    have hn := n.isLt
    have htail := tail.property
    rw [List.length_append, List.length_replicate]
    omega⟩

section
variable (n : Fin (2 ^ 20)) (tail : { s : List UInt8 // s.length < 2 ^ 20 })

theorem zeroPadded_size : (zeroPadded n tail).size = n + tail.val.length := by
  unfold Block.size zeroPadded
  rw [List.length_append, List.length_replicate]

/-- Behind the zero bytes are those of the block without them. -/
theorem zeroPadded_get (k : Nat) : (zeroPadded n tail).get ((n.val : Int) + k) = (zeroPadded 0 tail).get k := by
  have hnat : ((n.val : Int) + k).toNat = n.val + k := by omega
  unfold Block.get zeroPadded
  rw [hnat, List.getD_eq_getElem?_getD, List.getElem?_append_right (by simp), List.length_replicate, Nat.add_sub_cancel_left,
    List.getD_eq_getElem?_getD]
  rfl

theorem zeroPadded_word (k m : Nat) : (zeroPadded n tail).word ((n.val : Int) + k) m = (zeroPadded 0 tail).word k m := by
  induction m generalizing k with
  | zero => rfl
  | succ m ih =>
      have hnext : (n.val : Int) + k + 1 = (n.val : Int) + (k + 1 : Nat) := by omega
      have hnext' : (k : Int) + 1 = (k + 1 : Nat) := rfl
      unfold Block.word
      rw [zeroPadded_get, hnext, hnext', ih]

theorem zeroPadded_holds (k : Nat) (s : List UInt8) :
    (zeroPadded n tail).holds ((n.val : Int) + k) s = (zeroPadded 0 tail).holds k s := by
  induction s generalizing k with
  | nil => rfl
  | cons b s ih =>
      have hnext : (n.val : Int) + k + 1 = (n.val : Int) + (k + 1 : Nat) := by omega
      have hnext' : (k : Int) + 1 = (k + 1 : Nat) := rfl
      unfold Block.holds
      rw [zeroPadded_get, hnext, hnext', ih]

theorem zeroPadded_memberEnd (k : Nat) :
    memberEnd (zeroPadded n tail) (n.val + k) = n.val + memberEnd (zeroPadded 0 tail) k := by
  have hword : ∀ j m : Nat, (zeroPadded n tail).word (((n.val + k : Nat) : Int) + j) m = (zeroPadded 0 tail).word ((k : Int) + j) m := by
    intro j m
    rw [show ((n.val + k : Nat) : Int) + j = (n.val : Int) + (k + j : Nat) by omega, zeroPadded_word]
    rfl
  unfold memberEnd
  rw [show (28 : Int) = (28 : Nat) from rfl, show (30 : Int) = (30 : Nat) from rfl, show (32 : Int) = (32 : Nat) from rfl,
    hword, hword, hword, Nat.add_assoc]

theorem zeroPadded_directory {c k fin : Nat} (h : DirectoryAt (zeroPadded 0 tail) c k fin) :
    DirectoryAt (zeroPadded n tail) c (n.val + k) (n.val + fin) := by
  induction c generalizing k with
  | zero => exact congrArg (n.val + ·) h
  | succ c ih =>
      obtain ⟨hmagic, hend, hrest⟩ := h
      refine ⟨?_, ?_, ?_⟩
      · rw [show ((n.val + k : Nat) : Int) = (n.val : Int) + k from rfl, zeroPadded_holds, hmagic]
      · rw [zeroPadded_memberEnd]
        omega
      · rw [zeroPadded_memberEnd]
        exact ih hrest

/-- The names have the lengths that they have there. -/
theorem zeroPadded_members {c k : Nat} (h : ∀ m ∈ membersFrom (zeroPadded 0 tail) c k, m.name.length ≤ 255) :
    ∀ m ∈ membersFrom (zeroPadded n tail) c (n.val + k), m.name.length ≤ 255 := by
  induction c generalizing k with
  | zero => exact List.forall_mem_nil _
  | succ c ih =>
      obtain ⟨hhead, hrest⟩ := List.forall_mem_cons.mp h
      refine List.forall_mem_cons.mpr ⟨?_, ?_⟩
      · have hlen : (memberAt (zeroPadded 0 tail) k).name.length = (zeroPadded 0 tail).word ((k : Int) + 28) 2 := slice_length _ _ _
        have hlen' : (memberAt (zeroPadded n tail) (n.val + k)).name.length =
            (zeroPadded n tail).word (((n.val + k : Nat) : Int) + 28) 2 := slice_length _ _ _
        rw [hlen', show ((n.val + k : Nat) : Int) + 28 = (n.val : Int) + (k + 28 : Nat) by omega, zeroPadded_word]
        exact hlen.symm.trans_le hhead
      · rw [zeroPadded_memberEnd]
        exact ih hrest

end

/-- The end record of an empty archive. -/
def emptyZip : { s : List UInt8 // s.length < 2 ^ 20 } := ⟨ZIP_END_MAGIC ++ List.replicate 18 0, by decide⟩

/-- The end record of an archive is where the bytes behind the zero bytes have it. -/
theorem padded_ends (n : Fin (2 ^ 20)) {tail : { s : List UInt8 // s.length < 2 ^ 20 }} {k : Nat}
    (hsignature : (zeroPadded 0 tail).holds k ZIP_END_MAGIC = true)
    (hcomment : k + 22 + (zeroPadded 0 tail).word (k + 20 : Nat) 2 = tail.val.length)
    (hlast : ∀ i < tail.val.length, k < i → (zeroPadded 0 tail).holds i ZIP_END_MAGIC = false) :
    EndsWithZip (zeroPadded n tail) (n + k) := by
  have hcast : ∀ j : Nat, ((n.val + k : Nat) : Int) + j = (n.val : Int) + (k + j : Nat) := by omega
  constructor
  · rw [show ((n.val + k : Nat) : Int) = (n.val : Int) + k from rfl, zeroPadded_holds, hsignature]
  · rw [show ((n.val + k : Nat) : Int) + 20 = (n.val : Int) + (k + 20 : Nat) from hcast 20, zeroPadded_word,
      zeroPadded_size]
    omega
  · intro i hi hsize
    rw [zeroPadded_size] at hsize
    obtain ⟨j, rfl⟩ : ∃ j, i = n.val + j := ⟨i - n.val, by omega⟩
    rw [show ((n.val + j : Nat) : Int) = (n.val : Int) + j from rfl, zeroPadded_holds]
    exact hlast j (by omega) (by omega)

theorem emptyZip_ends (n : Fin (2 ^ 20)) : EndsWithZip (zeroPadded n emptyZip) n :=
  padded_ends n (k := 0) (by decide) (by decide) (by decide)

/-- A header of the central directory, with a name. -/
def centralHeader (name : List UInt8) : List UInt8 :=
  ZIP_CENTRAL_MAGIC ++ List.replicate 24 0 ++ [UInt8.ofNat name.length, 0] ++ List.replicate 16 0 ++ name

/-- Two entries, and an end record with a comment. The directory begins at 65536. -/
def twoEntries : { s : List UInt8 // s.length < 2 ^ 20 } :=
  ⟨centralHeader [0x61] ++ centralHeader [0x62, 0x63] ++ ZIP_END_MAGIC ++
    [0, 0, 0, 0, 0, 0, 2, 0, 95, 0, 0, 0, 0, 0, 1, 0, 3, 0] ++ [0x7a, 0x69, 0x70], by decide⟩

theorem twoEntries_ends : EndsWithZip (zeroPadded 65536 twoEntries) (65536 + 95) :=
  padded_ends 65536 (by decide) (by decide) (by decide)

theorem twoEntries_found : FourFind (zeroPadded 65536 twoEntries) (65536 + 95) := by
  have hword : ∀ k m : Nat, (zeroPadded 65536 twoEntries).word (((65536 + 95 : Nat) : Int) + k) m =
      (zeroPadded 0 twoEntries).word (95 + k : Nat) m := by
    intro k m
    have hval : ((65536 : Fin (2 ^ 20)).val : Int) = 65536 := rfl
    rw [← zeroPadded_word 65536 twoEntries (95 + k) m]
    exact congrArg (fun off => (zeroPadded 65536 twoEntries).word off m) (by omega)
  have hcount : (zeroPadded 65536 twoEntries).word (((65536 + 95 : Nat) : Int) + 10) 2 = 2 := (hword 10 2).trans (by decide)
  have hstart : (zeroPadded 65536 twoEntries).word (((65536 + 95 : Nat) : Int) + 16) 4 = 65536 := (hword 16 4).trans (by decide)
  refine ((zip_end_found_iff twoEntries_ends).2 ⟨65536 + 95, Nat.le_refl _, ?_⟩).mpr ⟨?_, ?_, ?_⟩
  · have hend : memberEnd (zeroPadded 0 twoEntries) (memberEnd (zeroPadded 0 twoEntries) 0) = 95 := by decide
    rw [hcount, hstart]
    exact zeroPadded_directory 65536 twoEntries (k := 0) ⟨by decide, by decide, by decide, by decide, hend⟩
  · rw [zeroPadded_size]
    decide
  · rw [zeroPadded_size]
    decide
  · unfold archiveMembers
    rw [hcount, hstart]
    exact zeroPadded_members 65536 twoEntries (k := 0) (by decide)

/-- The archive of a small file is not found. -/
theorem small_zip_missed : ¬∀ d e, EndsWithZip d e → HasDirectory d e → FourFind d e := by
  intro h
  have hcount : (zeroPadded 64 emptyZip).word (((64 : Nat) : Int) + 10) 2 = 0 :=
    (zeroPadded_word 64 emptyZip 10 2).trans (by decide)
  have hstart : (zeroPadded 64 emptyZip).word (((64 : Nat) : Int) + 16) 4 = 0 :=
    (zeroPadded_word 64 emptyZip 16 4).trans (by decide)
  have hdirectory : HasDirectory (zeroPadded 64 emptyZip) 64 := by
    refine ⟨0, Nat.zero_le _, ?_⟩
    rw [hcount, hstart]
    rfl
  have hbig := ((searchesFind_iff (emptyZip_ends 64)).mp (h _ _ (emptyZip_ends 64) hdirectory).toSearchesFind).1
  rw [zeroPadded_size] at hbig
  exact absurd hbig (by decide)

end E9Patch
