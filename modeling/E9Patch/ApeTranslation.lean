import E9Patch.ApeBounds
import E9Patch.SegmentMap

/-!
The translation of addresses of APE files. The cached sections are segments that move RVAs to file offsets,
and what is in none of them is taken for both. RVAs have 32 bits.
-/

namespace E9Patch
open Reader SegmentMap

set_option maxRecDepth 20000

variable {d : Block} {info : APEInfo}

def APESection.containsOffset (s : APESection) (offset : Int) : Bool := s.offset ≤ offset ∧ offset < s.offset + s.size

/-- The sum and the difference are of 32 bits. -/
def APESection.toRva (s : APESection) (offset : Int) : Nat := ((s.rva + (offset - s.offset) % 2 ^ 32) % 2 ^ 32).toNat

/-- Convert file offset to PE RVA. -/
def e9_ape_offset_to_rva (info : APEInfo) (offset : Int) : Nat :=
  if info.text.containsOffset offset then info.text.toRva offset
  else if info.rdata.containsOffset offset then info.rdata.toRva offset
  else if info.data.containsOffset offset then info.data.toRva offset
  else (offset % 2 ^ 32).toNat

/-! ### The cached sections -/

def APEInfo.sections (info : APEInfo) : List APESection := [info.text, info.rdata, info.data]

def APESection.segment (s : APESection) : Segment := ⟨s.rva, s.offset, s.size⟩

def APEInfo.segments (info : APEInfo) : List Segment := info.sections.map APESection.segment

/-- The fields of a section header have 32 bits. -/
structure APESection.Fits (s : APESection) : Prop where
  nonneg : 0 ≤ s.offset
  offset : s.offset < 2 ^ 32
  rva : s.rva < 2 ^ 32
  size : s.size < 2 ^ 32

def APEInfo.Fits (info : APEInfo) : Prop := ∀ s ∈ info.sections, s.Fits

theorem APEInfo.fits_iff : info.Fits ↔ info.text.Fits ∧ info.rdata.Fits ∧ info.data.Fits := by
  simp [APEInfo.Fits, APEInfo.sections]

/-- No section is cached yet. -/
theorem fits_of_zero (h : info.sections = APEInfo.zero.sections) : info.Fits := by
  have hzero : (⟨0, 0, 0⟩ : APESection).Fits := ⟨by decide, by decide, by decide, by decide⟩
  unfold APEInfo.Fits
  rw [h]
  exact APEInfo.fits_iff.mpr ⟨hzero, hzero, hzero⟩

theorem readSection_fits {sec : Int} {s : APESection} (h : readSection d sec = .ok s) : s.Fits := by
  unfold readSection at h
  obtain ⟨offset, hoffset, h⟩ := of_bind h
  obtain ⟨rva, hrva, h⟩ := of_bind h
  obtain ⟨size, hsize, h⟩ := of_bind h
  have hoffset' := read_eq hoffset ▸ d.word_lt (sec + 20) 4
  have hrva' := read_eq hrva ▸ d.word_lt (sec + 12) 4
  have hsize' := read_eq hsize ▸ d.word_lt (sec + 16) 4
  cases h
  exact ⟨by simp only; omega, by simp only; omega, by simp only; omega, by simp only; omega⟩

theorem cacheSection_fits {sec : Int} {info' : APEInfo} (hinfo : info.Fits)
    (h : cacheSection d sec info = .ok info') : info'.Fits := by
  obtain ⟨htext, hrdata, hdata⟩ := APEInfo.fits_iff.mp hinfo
  unfold cacheSection at h
  obtain ⟨text, -, h⟩ := of_bind h
  split at h
  · obtain ⟨s, hs, h⟩ := of_bind h
    cases h
    exact APEInfo.fits_iff.mpr ⟨readSection_fits hs, hrdata, hdata⟩
  obtain ⟨rdata, -, h⟩ := of_bind h
  split at h
  · obtain ⟨s, hs, h⟩ := of_bind h
    cases h
    exact APEInfo.fits_iff.mpr ⟨htext, readSection_fits hs, hdata⟩
  obtain ⟨data, -, h⟩ := of_bind h
  split at h
  · obtain ⟨s, hs, h⟩ := of_bind h
    cases h
    exact APEInfo.fits_iff.mpr ⟨htext, hrdata, readSection_fits hs⟩
  · cases h
    exact hinfo

theorem cacheSections_fits {n : Nat} {sec : Int} {info' : APEInfo} (hinfo : info.Fits)
    (h : cacheSections d n sec info = .ok info') : info'.Fits := by
  induction n generalizing sec info with
  | zero =>
      cases h
      exact hinfo
  | succ n ih =>
      obtain ⟨info₁, h₁, h⟩ := of_bind h
      exact ih (cacheSection_fits hinfo h₁) h

theorem findElf_sections {fuel : Nat} {i : Int} {info' : APEInfo} (h : findElf d fuel i info = .ok info') :
    info'.sections = info.sections := by
  induction fuel generalizing i info with
  | zero => cases h
  | succ fuel ih =>
      unfold findElf at h
      split at h
      · obtain ⟨elf, -, h⟩ := of_bind h
        split at h
        · obtain ⟨e_machine, -, h⟩ := of_bind h
          split at h
          · cases h
            rfl
          · split at h
            · have hrest := ih h
              exact hrest
            · exact ih h
        · exact ih h
      · cases h
        rfl

theorem findZipEnd_sections {fuel : Nat} {i : Int} {info' : APEInfo} (h : findZipEnd d fuel i info = .ok info') :
    info'.sections = info.sections := by
  induction fuel generalizing i with
  | zero => cases h
  | succ fuel ih =>
      unfold findZipEnd at h
      split at h
      · obtain ⟨magic, -, h⟩ := of_bind h
        split at h
        · obtain ⟨entries, -, h⟩ := of_bind h
          obtain ⟨central, -, h⟩ := of_bind h
          obtain ⟨start, -, h⟩ := of_bind h
          cases h
          rfl
        · exact ih h
      · cases h
        rfl

/-- The parser leaves sections whose fields have 32 bits. -/
theorem parse_fits (h : e9_ape_parse d = .ok (some info)) : info.Fits := by
  have hheaders := safe_parse.mp ⟨_, h⟩
  by_cases haccepted : HeaderAccepted d
  · rw [parse_accepts hheaders.detect haccepted] at h
    unfold parseAccepted at h
    obtain ⟨magic, -, h⟩ := of_bind h
    split at h
    · cases h
    · obtain ⟨pe_size, -, h⟩ := of_bind h
      obtain ⟨info₁, h₁, h⟩ := of_bind h
      have hfits₁ : info₁.Fits := by
        refine cacheSections_fits (fits_of_zero ?_) h₁
        rfl
      unfold parseTail at h
      obtain ⟨info₂, h₂, h⟩ := of_bind h
      obtain ⟨info₃, h₃, h⟩ := of_bind h
      cases h
      unfold APEInfo.Fits
      rw [findZipEnd_sections h₃, findElf_sections h₂]
      exact hfits₁
  · rw [parse_rejects hheaders.detect haccepted] at h
    cases h

/-! ### Translation -/

theorem contains_segment (s : APESection) (rva : Nat) : s.contains rva = s.segment.contains rva := by
  simp only [APESection.contains, Segment.contains, APESection.segment]
  congr 1
  simp only [eq_iff_iff]
  omega

/-- RVAs are moved by the segments. -/
theorem rva_to_offset_eq (info : APEInfo) (rva : Nat) :
    e9_ape_rva_to_offset info rva = mapAddr info.segments rva := by
  unfold e9_ape_rva_to_offset mapAddr APEInfo.segments APEInfo.sections
  simp only [List.map_cons, List.map_nil, List.find?_cons, List.find?_nil, contains_segment]
  cases info.text.segment.contains rva with
  | true => rfl
  | false =>
      cases info.rdata.segment.contains rva with
      | true => rfl
      | false => cases info.data.segment.contains rva <;> rfl

/-- File offsets are moved back, and reduced to 32 bits. -/
theorem offset_to_rva_eq (info : APEInfo) (offset : Int) :
    (e9_ape_offset_to_rva info offset : Int) = mapAddr (back info.segments) offset % 2 ^ 32 := by
  have hcontains : ∀ s : APESection, s.containsOffset offset = s.segment.swap.contains offset := fun s => rfl
  have hmove : ∀ s : APESection, (s.toRva offset : Int) = s.segment.swap.move offset % 2 ^ 32 := by
    intro s
    simp only [APESection.toRva, Segment.move, Segment.swap, APESection.segment]
    omega
  unfold e9_ape_offset_to_rva mapAddr back APEInfo.segments APEInfo.sections
  simp only [List.map_cons, List.map_nil, List.find?_cons, List.find?_nil, hcontains]
  cases info.text.segment.swap.contains offset with
  | true => exact hmove _
  | false =>
      cases info.rdata.segment.swap.contains offset with
      | true => exact hmove _
      | false =>
          cases info.data.segment.swap.contains offset with
          | true => exact hmove _
          | false =>
              simp only [Bool.false_eq_true, if_false]
              omega

section
variable (hfits : info.Fits)
include hfits

/-- A file offset and what it stands for. -/
theorem back_cases (x : Int) : mapAddr (back info.segments) x = x ∧ ¬Covered (back info.segments) x ∨
    ∃ s ∈ info.sections, s.Fits ∧ s.offset ≤ x ∧ x < s.offset + s.size ∧
      mapAddr (back info.segments) x = s.rva + (x - s.offset) := by
  rcases translate_cases (back info.segments) x with h | ⟨t, ht, hc, hmove⟩
  · exact Or.inl h
  · obtain ⟨u, hu, rfl⟩ := List.mem_map.mp ht
    obtain ⟨s, hs, rfl⟩ := List.mem_map.mp hu
    have hin := Segment.contains_iff.mp hc
    exact Or.inr ⟨s, hs, hfits s hs, hin.1, hin.2, hmove⟩

/-- An RVA comes back, unless it is one that no section has at an offset that one has. -/
theorem rva_back_iff (hdst : Disjoint (back info.segments)) {rva : Nat} (hrva : rva < 2 ^ 32) :
    e9_ape_offset_to_rva info (e9_ape_rva_to_offset info rva) = rva ↔
      (Covered (back info.segments) rva → Covered info.segments rva) := by
  rw [← translate_back_iff hdst, ← rva_to_offset_eq, ← Int.ofNat_inj, offset_to_rva_eq]
  constructor
  · intro h
    by_cases hcovered : Covered info.segments rva
    · rw [rva_to_offset_eq]
      exact (translate_back_iff hdst).mpr fun _ => hcovered
    · rw [rva_to_offset_eq, translate_of_not_covered hcovered] at h ⊢
      rcases back_cases hfits rva with ⟨hstay, -⟩ | ⟨s, -, hs, hlo, hhi, hmove⟩
      · exact hstay
      · have h1 := hs.nonneg
        have h2 := hs.offset
        have h3 := hs.rva
        have h4 := hs.size
        rw [hmove] at h ⊢
        omega
  · intro h
    rw [h]
    omega

/-- A file offset comes back, if it stands for an RVA, and no section has an RVA of that number that is not
at an offset of one. -/
theorem offset_back_iff (hsrc : Disjoint info.segments) (hdst : Disjoint (back info.segments)) {offset : Int}
    (hoffset : 0 ≤ offset) :
    e9_ape_rva_to_offset info (e9_ape_offset_to_rva info offset) = offset ↔
      mapAddr (back info.segments) offset < 2 ^ 32 ∧
        (Covered info.segments offset → Covered (back info.segments) offset) := by
  have hback := @translate_back_iff (back info.segments) offset (by rwa [back_back])
  rw [back_back] at hback
  rw [← hback, rva_to_offset_eq, offset_to_rva_eq]
  by_cases hlt : mapAddr (back info.segments) offset < 2 ^ 32
  · have hnonneg : 0 ≤ mapAddr (back info.segments) offset := by
      rcases back_cases hfits offset with ⟨hstay, -⟩ | ⟨s, -, -, hlo, -, hmove⟩
      · omega
      · omega
    rw [Int.emod_eq_of_lt hnonneg hlt]
    simp only [hlt, true_and]
  · refine iff_of_false (fun heq => ?_) fun h => hlt h.1
    generalize hw : mapAddr (back info.segments) offset % 2 ^ 32 = w at heq
    have hw0 : 0 ≤ w ∧ w < 2 ^ 32 := by omega
    rcases translate_cases info.segments w with ⟨hstay, -⟩ | ⟨t, ht, hc, hmove⟩
    · rw [hstay] at heq
      rcases back_cases hfits offset with ⟨hsame, -⟩ | ⟨s, -, hs, hlo, hhi, hmove⟩
      · omega
      · have h1 := hs.nonneg
        have h2 := hs.rva
        have h3 := hs.size
        omega
    · have hin := Segment.contains_move hc
      rw [← hmove, heq] at hin
      rcases back_cases hfits offset with ⟨-, hnone⟩ | ⟨s, hs, hsfits, hlo, hhi, hback⟩
      · exact hnone (covered_back.mpr ⟨t, ht, hin⟩)
      · have hmove' := translate_of_contains hdst (List.mem_map_of_mem ht) hin
        have hc' := Segment.contains_iff.mp hc
        obtain ⟨u, hu, rfl⟩ := List.mem_map.mp ht
        have hu := hfits u hu
        have h1 := hu.nonneg
        have h2 := hu.rva
        have h3 := hu.size
        have h4 := hu.offset
        have hin' := Segment.contains_iff.mp hin
        simp only [Segment.move, Segment.swap, APESection.segment] at hmove' hc' hin'
        omega

end

/-! ### The two translations -/

/-- The number is an RVA in a cached section. -/
def APEInfo.HasRva (info : APEInfo) (x : Int) : Prop := ∃ s ∈ info.sections, s.rva ≤ x ∧ x < s.rva + s.size

/-- The number is a file offset in a cached section. -/
def APEInfo.HasOffset (info : APEInfo) (x : Int) : Prop := ∃ s ∈ info.sections, s.offset ≤ x ∧ x < s.offset + s.size

theorem covered_rva {x : Int} : Covered info.segments x ↔ info.HasRva x := by
  simp only [Covered, APEInfo.segments, List.mem_map, exists_exists_and_eq_and, Segment.contains_iff, APEInfo.HasRva,
    APESection.segment]

theorem covered_offset {x : Int} : Covered (back info.segments) x ↔ info.HasOffset x := by
  simp only [covered_back, APEInfo.segments, List.mem_map, exists_exists_and_eq_and, Segment.contains_iff,
    APEInfo.HasOffset, APESection.segment, Segment.swap]

/-- The sections share neither RVAs nor file offsets. -/
def APEInfo.Disjoint (info : APEInfo) : Prop :=
  SegmentMap.Disjoint info.segments ∧ SegmentMap.Disjoint (back info.segments)

/-- Each translation takes back the other, of every RVA and of every offset in a file of `size` bytes. -/
structure APEInfo.Inverse (info : APEInfo) (size : Nat) : Prop where
  rva : ∀ rva < 2 ^ 32, e9_ape_offset_to_rva info (e9_ape_rva_to_offset info rva) = rva
  offset : ∀ offset : Int, 0 ≤ offset → offset < size →
    e9_ape_rva_to_offset info (e9_ape_offset_to_rva info offset) = offset

/-- The RVAs of the sections are the same numbers as their file offsets, as far as there are RVAs and offsets.
What is in no section is below 2^32, and so is the RVA of what is in one. -/
structure APEInfo.SameNumbers (info : APEInfo) (size : Nat) : Prop where
  offset_is_rva : ∀ x : Nat, x < 2 ^ 32 → info.HasOffset x → info.HasRva x
  rva_is_offset : ∀ x : Int, 0 ≤ x → x < size → info.HasRva x → info.HasOffset x
  outside : ∀ x : Int, 0 ≤ x → x < size → ¬info.HasOffset x → x < 2 ^ 32
  inside : ∀ x : Int, 0 ≤ x → x < size → ∀ s ∈ info.sections, s.offset ≤ x → x < s.offset + s.size →
    s.rva + (x - s.offset) < 2 ^ 32

/-- The RVA that a file offset stands for has 32 bits. -/
theorem back_lt_iff (hdst : SegmentMap.Disjoint (back info.segments)) {x : Int} :
    mapAddr (back info.segments) x < 2 ^ 32 ↔ (¬info.HasOffset x → x < 2 ^ 32) ∧
      ∀ s ∈ info.sections, s.offset ≤ x → x < s.offset + s.size → s.rva + (x - s.offset) < 2 ^ 32 := by
  by_cases hx : info.HasOffset x
  · have hmove : ∀ s ∈ info.sections, s.offset ≤ x → x < s.offset + s.size →
        mapAddr (back info.segments) x = s.rva + (x - s.offset) := by
      intro s hs hlo hhi
      exact translate_of_contains hdst (List.mem_map_of_mem (List.mem_map_of_mem hs)) (Segment.contains_iff.mpr ⟨hlo, hhi⟩)
    constructor
    · exact fun h => ⟨fun hc => absurd hx hc, fun s hs hlo hhi => hmove s hs hlo hhi ▸ h⟩
    · rintro ⟨-, h⟩
      obtain ⟨s, hs, hlo, hhi⟩ := hx
      rw [hmove s hs hlo hhi]
      exact h s hs hlo hhi
  · rw [translate_of_not_covered fun hc => hx (covered_offset.mp hc)]
    exact ⟨fun h => ⟨fun _ => h, fun s hs hlo hhi => absurd ⟨s, hs, hlo, hhi⟩ hx⟩, fun h => h.1 hx⟩

/-- The translations are inverse to each other exactly where the sections have the same numbers for RVAs and
offsets. -/
theorem ape_translation_iff (hparse : e9_ape_parse d = .ok (some info)) (hdisjoint : info.Disjoint) :
    info.Inverse d.size ↔ info.SameNumbers d.size := by
  have hfits := parse_fits hparse
  obtain ⟨hsrc, hdst⟩ := hdisjoint
  constructor
  · intro h
    have hoffset : ∀ x : Int, 0 ≤ x → x < d.size → _ := fun x hx hsize =>
      (offset_back_iff hfits hsrc hdst hx).mp (h.offset x hx hsize)
    refine ⟨?_, ?_, ?_, ?_⟩
    · intro x hx hoff
      exact covered_rva.mp ((rva_back_iff hfits hdst hx).mp (h.rva x hx) (covered_offset.mpr hoff))
    · intro x hx hsize hrva
      exact covered_offset.mp ((hoffset x hx hsize).2 (covered_rva.mpr hrva))
    · intro x hx hsize
      exact ((back_lt_iff hdst).mp (hoffset x hx hsize).1).1
    · intro x hx hsize
      exact ((back_lt_iff hdst).mp (hoffset x hx hsize).1).2
  · intro h
    refine ⟨?_, ?_⟩
    · intro rva hrva
      exact (rva_back_iff hfits hdst hrva).mpr fun hc => covered_rva.mpr (h.offset_is_rva rva hrva (covered_offset.mp hc))
    · intro offset hoffset hsize
      refine (offset_back_iff hfits hsrc hdst hoffset).mpr ⟨?_, fun hc => ?_⟩
      · exact (back_lt_iff hdst).mpr ⟨h.outside offset hoffset hsize, h.inside offset hoffset hsize⟩
      · exact covered_offset.mpr (h.rva_is_offset offset hoffset hsize (covered_rva.mp hc))

/-- Then no two RVAs are those of one byte of the file. -/
theorem APEInfo.Inverse.injective {size : Nat} (h : info.Inverse size) {rva rva' : Nat} (hrva : rva < 2 ^ 32)
    (hrva' : rva' < 2 ^ 32) (heq : e9_ape_rva_to_offset info rva = e9_ape_rva_to_offset info rva') : rva = rva' := by
  rw [← h.rva rva hrva, heq, h.rva rva' hrva']

/-- A file of headers only, with one section of 32 bytes at offset 0x80. -/
def textFile (rva : Fin 2) : Block :=
  ⟨APE_MAGIC_COSMO ++ List.replicate 54 0 ++ [0x40, 0, 0, 0] ++ PE_SIGNATURE ++ [0x64, 0x86, 1, 0] ++ List.replicate 12 0 ++
    [60, 0, 0, 0] ++ [0x0B, 0x02] ++ List.replicate 58 0 ++ SECTION_TEXT ++ List.replicate 7 0 ++
    (if rva = 0 then [0x80, 0, 0, 0] else [0, 0x10, 0, 0]) ++ [0x20, 0, 0, 0] ++ [0x80, 0, 0, 0] ++ List.replicate 16 0,
    by revert rva; decide⟩

/-- What the parser makes of it. -/
def textInfo (rva : Fin 2) : APEInfo :=
  { APEInfo.zero with
    is_cosmopolitan := true, pe_offset := 0x40, pe_num_sections := 1, preserve_zipos := true
    text := ⟨0x80, if rva = 0 then 0x80 else 0x1000, 0x20⟩ }

theorem textFile_parsed (rva : Fin 2) : e9_ape_parse (textFile rva) = .ok (some (textInfo rva)) := by
  revert rva
  decide

theorem textInfo_disjoint (rva : Fin 2) : (textInfo rva).Disjoint := by
  revert rva
  simp [APEInfo.Disjoint, SegmentMap.Disjoint, textInfo, APEInfo.segments, APEInfo.sections, APEInfo.zero, back,
    APESection.segment, Segment.swap, Segment.contains]

theorem textFile_inverse : (textInfo 0).Inverse (textFile 0).size ↔ (textInfo 0).SameNumbers (textFile 0).size :=
  ape_translation_iff (textFile_parsed 0) (textInfo_disjoint 0)

/-- The RVA 0x80 is translated to the offset of the section, which stands for the RVA 0x1000. -/
theorem shifted_text_overlaps : ¬∀ d info, e9_ape_parse d = .ok (some info) → info.Disjoint → info.Inverse d.size := by
  intro h
  have hrva := (h (textFile 1) (textInfo 1) (textFile_parsed 1) (textInfo_disjoint 1)).rva 0x80 (by decide)
  exact absurd hrva (by decide)

end E9Patch
