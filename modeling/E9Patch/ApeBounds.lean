import E9Patch.ApeModel

/-!
Which reads of the APE parser stay inside the file. Where the parser checks a structure before it reads it,
nothing is asked of the file; what is left are the structures that it reads without a check, and the check
of the detection, whose sum wraps around.
-/

namespace E9Patch
open Reader

variable {d : Block}

/-! ### Detection -/

/-- The offset of the PE header, which the MZ header gives. -/
def peOffset (d : Block) : Nat := d.word 0x3C 4

/-- The file has an MZ header that is not that of an APE file. -/
def PlainMZ (d : Block) : Prop :=
  64 ≤ d.size ∧ d.holds 0 APE_MAGIC_COSMO = false ∧ d.word 0 1 = 0x4d ∧ d.word 1 1 = 0x5a

/-- The sum in the check of the detection does not wrap around, or the file is that large. -/
def DetectFits (d : Block) : Prop := PlainMZ d → peOffset d + 4 < 2 ^ 32 ∨ peOffset d + 4 ≤ d.size

/-- What the detection says. -/
def IsAPE (d : Block) : Prop :=
  64 ≤ d.size ∧ (d.holds 0 APE_MAGIC_COSMO = true ∨
    d.word 0 1 = 0x4d ∧ d.word 1 1 = 0x5a ∧ peOffset d + 4 ≤ d.size ∧ d.holds (peOffset d) PE_SIGNATURE = true)

theorem peOffset_lt (d : Block) : peOffset d < 2 ^ 32 := d.word_lt 0x3C 4

theorem has_of_le {off : Int} {n : Nat} (h0 : 0 ≤ off) (h : off + n ≤ d.size) : d.Has off n := ⟨h0, h⟩

theorem detectHeredoc_ok {fuel i : Nat} (hsize : 64 ≤ d.size) (hfuel : 64 < fuel + i) (hi : i ≤ 64) :
    detectHeredoc d fuel i = .ok () := by
  induction fuel generalizing i with
  | zero => omega
  | succ fuel ih =>
      unfold detectHeredoc
      split
      · rename_i h
        rw [read_ok (has_of_le (by omega) (by omega)), read_ok (has_of_le (by omega) (by omega))]
        simp only [ok_bind, ih (show 64 < fuel + (i + 1) by omega) (by omega), ite_self]
      · rfl

/-- The detection, up to the check of the offset. -/
theorem detect_eq (hsize : 64 ≤ d.size) : e9_ape_detect d =
    if d.holds 0 APE_MAGIC_COSMO then .ok true
    else if d.word 0 1 ≠ 0x4d then .ok false
    else if d.word 1 1 ≠ 0x5a then .ok false
    else if (peOffset d + 4) % 2 ^ 32 > d.size then .ok false
    else memcmp d (peOffset d) PE_SIGNATURE := by
  unfold e9_ape_detect peOffset
  rw [if_neg (by omega), memcmp_ok (has_of_le (by decide) (by simp only [APE_MAGIC_COSMO, List.length_cons, List.length_nil]; omega)),
    read_ok (has_of_le (by decide) (by omega)), read_ok (has_of_le (by decide) (by omega)),
    read_ok (has_of_le (by decide) (by omega))]
  simp only [ok_bind, detectHeredoc_ok hsize (show 64 < 64 + 8 by decide) (by decide)]
  have hbool : ∀ x : Except Fault Bool, (x >>= fun b => if b = true then .ok true else .ok false) = x := by
    intro x
    cases x with
    | error e => rfl
    | ok b => cases b <;> rfl
  rw [hbool]

theorem memcmp_pe (off : Nat) : (off + 4 ≤ d.size ∧ memcmp d off PE_SIGNATURE = .ok (d.holds off PE_SIGNATURE)) ∨
    (¬off + 4 ≤ d.size ∧ memcmp d off PE_SIGNATURE = .error .outOfBounds) := by
  by_cases h : off + 4 ≤ d.size
  · exact Or.inl ⟨h, memcmp_ok (has_of_le (by omega) (by simp only [PE_SIGNATURE, List.length_cons, List.length_nil]; omega))⟩
  · refine Or.inr ⟨h, if_neg fun hc => h ?_⟩
    have := hc.2
    simp only [PE_SIGNATURE, List.length_cons, List.length_nil] at this
    omega

theorem detect_ok (h : DetectFits d) : ∃ ape, e9_ape_detect d = .ok ape ∧ (ape = true ↔ IsAPE d) := by
  by_cases hsize : 64 ≤ d.size
  · have hlt := peOffset_lt d
    rw [detect_eq hsize]
    unfold IsAPE
    by_cases hcosmo : d.holds 0 APE_MAGIC_COSMO = true
    · exact ⟨true, if_pos hcosmo, by simp only [hsize, hcosmo, true_or, and_self]⟩
    by_cases hm : d.word 0 1 = 0x4d
    · by_cases hz : d.word 1 1 = 0x5a
      · have hfit := h ⟨hsize, by simpa using hcosmo, hm, hz⟩
        have hsum : (peOffset d + 4) % 2 ^ 32 > d.size ↔ ¬peOffset d + 4 ≤ d.size := by omega
        rcases memcmp_pe (d := d) (peOffset d) with ⟨hle, hc⟩ | ⟨hle, hc⟩
        · refine ⟨d.holds (peOffset d) PE_SIGNATURE, ?_, ?_⟩
          · simp only [hcosmo, hm, hz, hsum, hle, hc, ne_eq, not_true_eq_false, if_false, Bool.false_eq_true]
          · simp only [hcosmo, hm, hz, hle, hsize, Bool.false_eq_true, false_or, true_and]
        · refine ⟨false, ?_, ?_⟩
          · simp only [hcosmo, hm, hz, hsum, hle, ne_eq, not_true_eq_false, not_false_eq_true, if_true, if_false,
              Bool.false_eq_true]
          · simp only [hcosmo, hle, Bool.false_eq_true, false_and, and_false, or_self]
      · exact ⟨false, by simp [hcosmo, hm, hz], by simp [hcosmo, hz]⟩
    · exact ⟨false, by simp [hcosmo, hm], by simp [hcosmo, hm]⟩
  · refine ⟨false, ?_, ?_⟩
    · unfold e9_ape_detect
      rw [if_pos (by omega)]
    · simp only [Bool.false_eq_true, false_iff]
      exact fun hape => hsize hape.1

theorem safe_detect : Safe (e9_ape_detect d) ↔ DetectFits d := by
  refine ⟨?_, fun h => (detect_ok h).imp fun _ h => h.1⟩
  rintro hsafe ⟨hsize, hcosmo, hm, hz⟩
  by_contra hc
  have hlt := peOffset_lt d
  rw [detect_eq hsize, hcosmo, hm, hz] at hsafe
  have hsum : ¬(peOffset d + 4) % 2 ^ 32 > d.size := by omega
  have hle : ¬peOffset d + 4 ≤ d.size := fun h => hc (Or.inr h)
  rcases memcmp_pe (d := d) (peOffset d) with ⟨h, -⟩ | ⟨-, h⟩
  · exact hle h
  · simp only [Bool.false_eq_true, if_false, ne_eq, not_true_eq_false, hsum, h, not_safe_error] at hsafe

/-! ### Loops that check what they read -/

theorem skipMarker_ok {fuel k : Nat} (hfuel : d.size < fuel + k) (hk : k ≤ d.size) : skipMarker d fuel k = .ok () := by
  induction fuel generalizing k with
  | zero => omega
  | succ fuel ih =>
      unfold skipMarker
      split
      · rw [read_ok (has_of_le (by omega) (by omega))]
        simp only [ok_bind, ih (show d.size < fuel + (k + 1) by omega) (by omega), ite_self]
      · rfl

theorem findHeredoc_ok {fuel i : Nat} (hfuel : 128 < fuel + i) (hi : i ≤ 128) : findHeredoc d fuel i = .ok () := by
  induction fuel generalizing i with
  | zero => omega
  | succ fuel ih =>
      unfold findHeredoc
      split
      · rename_i h
        rw [read_ok (has_of_le (by omega) (by omega)), read_ok (has_of_le (by omega) (by omega)),
          read_ok (has_of_le (by omega) (by omega))]
        simp only [ok_bind, ih (show 128 < fuel + (i + 1) by omega) (by omega),
          skipMarker_ok (show d.size < d.size + 1 + (i + 3) by omega) (by omega), ite_self]
      · rfl

theorem ELF_MAGIC_length : ELF_MAGIC.length = 4 := rfl
theorem ZIP_LOCAL_MAGIC_length : ZIP_LOCAL_MAGIC.length = 4 := rfl
theorem ZIP_CENTRAL_MAGIC_length : ZIP_CENTRAL_MAGIC.length = 4 := rfl
theorem ZIP_END_MAGIC_length : ZIP_END_MAGIC.length = 4 := rfl

/-- The search for an embedded file reads within the pages that it checks, and leaves the archive alone. -/
theorem findElf_ok {fuel : Nat} {i : Int} (info : APEInfo) (hpos : 0 < fuel) (hfuel : (d.size : Int) < fuel + i)
    (hi : 0 ≤ i) :
    ∃ info', findElf d fuel i info = .ok info' ∧ info'.zipos_central_dir = info.zipos_central_dir := by
  induction fuel generalizing i info with
  | zero => omega
  | succ fuel ih =>
      unfold findElf
      split
      · rename_i h
        rw [memcmp_ok (has_of_le hi (by rw [ELF_MAGIC_length]; omega)), read_ok (has_of_le (by omega) (by omega))]
        simp only [ok_bind]
        split
        · split
          · exact ⟨_, rfl, rfl⟩
          split
          · exact ih _ (by omega) (by omega) (by omega)
          · exact ih _ (by omega) (by omega) (by omega)
        · exact ih _ (by omega) (by omega) (by omega)
      · exact ⟨info, rfl, rfl⟩

theorem findLocal_ok (central : Int) {fuel : Nat} {j : Int} (hfuel : (d.size : Int) < fuel + j) (hpos : 0 < fuel)
    (hj : 0 ≤ j) : ∃ start, findLocal d central fuel j = .ok start := by
  induction fuel generalizing j with
  | zero => omega
  | succ fuel ih =>
      unfold findLocal
      split
      · rename_i h
        rw [memcmp_ok (has_of_le hj (by rw [ZIP_LOCAL_MAGIC_length]; omega))]
        simp only [ok_bind]
        split
        · exact ⟨_, rfl⟩
        · exact ih (by omega) (by omega) (by omega)
      · exact ⟨none, rfl⟩

/-- The end of the archive: the last signature in the part of the file that is searched. -/
structure IsZipEnd (d : Block) (i : Int) : Prop where
  pos : 0 < i
  low : (d.size : Int) - 65536 < i
  high : i ≤ (d.size : Int) - 22
  signature : d.holds i ZIP_END_MAGIC = true
  last : ∀ j, i < j → j ≤ (d.size : Int) - 22 → d.holds j ZIP_END_MAGIC = false

/-- The central directory is where the end of the archive says; there is none if the archive has no end. -/
def CentralDir (d : Block) (central : Int) : Prop :=
  (∃ i, IsZipEnd d i ∧ central = d.word (i + 16) 4) ∨ (∀ i, ¬IsZipEnd d i) ∧ central = 0

theorem findZipEnd_ok {fuel : Nat} {i : Int} {info : APEInfo} (hfuel : i < fuel) (hpos : 0 < fuel)
    (hi : i ≤ (d.size : Int) - 22) (hinfo : info.zipos_central_dir = 0)
    (hlast : ∀ j, i < j → j ≤ (d.size : Int) - 22 → d.holds j ZIP_END_MAGIC = false) :
    ∃ info', findZipEnd d fuel i info = .ok info' ∧ CentralDir d info'.zipos_central_dir := by
  induction fuel generalizing i with
  | zero => omega
  | succ fuel ih =>
      unfold findZipEnd
      split
      · rename_i h
        rw [memcmp_ok (has_of_le (by omega) (by rw [ZIP_END_MAGIC_length]; omega)),
          read_ok (has_of_le (by omega) (by omega)), read_ok (has_of_le (by omega) (by omega))]
        simp only [ok_bind]
        split
        · rename_i hmagic
          obtain ⟨start, hstart⟩ := findLocal_ok (d.word (i + 16) 4)
            (show (d.size : Int) < (d.size + 1 : Nat) + 0 by omega) (by omega) (by omega)
          rw [hstart]
          exact ⟨_, rfl, Or.inl ⟨i, ⟨by omega, by omega, hi, hmagic, hlast⟩, rfl⟩⟩
        · rename_i hmagic
          refine ih (by omega) (by omega) (by omega) ?_
          intro j hj hjs
          by_cases hji : j = i
          · rw [hji]
            simpa using hmagic
          · exact hlast j (by omega) hjs
      · rename_i h
        refine ⟨info, rfl, Or.inr ⟨?_, hinfo⟩⟩
        intro j hj
        have hlow := hj.low
        have hpos := hj.pos
        have hsig := hlast j (by omega) hj.high
        rw [hj.signature] at hsig
        cases hsig

theorem parseTail_ok {info : APEInfo} (hsize : 64 ≤ d.size) (hdata : 0 ≤ info.data.offset)
    (hinfo : info.zipos_central_dir = 0) :
    ∃ info', parseTail d info = .ok (some info') ∧ CentralDir d info'.zipos_central_dir := by
  unfold parseTail
  obtain ⟨info₁, h1, hc1⟩ := findElf_ok (d := d) (i := (info.data.offset + info.data.size + 0xFFF) / 0x1000 * 0x1000)
    info (show 0 < d.size + 1 by omega) (by omega) (by omega)
  obtain ⟨info₂, h2, hc2⟩ := findZipEnd_ok (d := d) (show (d.size : Int) - 22 < (d.size + 1 : Nat) by omega)
    (show 0 < d.size + 1 by omega) (by omega) (hc1.trans hinfo) (fun j h h' => by omega)
  simp only [h1, ok_bind, h2]
  exact ⟨info₂, rfl, hc2⟩

/-! ### The headers -/

/-- The section header at `sec` is named as one that is cached. -/
def IsCached (d : Block) (sec : Int) : Prop :=
  d.holds sec SECTION_TEXT = true ∨ d.holds sec SECTION_RDATA = true ∨ d.holds sec SECTION_DATA = true

/-- What is read of the section header at `sec` is inside the file: the name, and of one that is cached also
where it is. -/
def SectionFits (d : Block) (sec : Int) : Prop := d.Has sec 6 ∧ (IsCached d sec → d.Has sec 24)

def sectionAt (d : Block) (sec : Int) : APESection := ⟨d.word (sec + 20) 4, d.word (sec + 12) 4, d.word (sec + 16) 4⟩

theorem readSection_ok {sec : Int} (h : d.Has sec 24) : readSection d sec = .ok (sectionAt d sec) := by
  have hle := h.2
  have h0 := h.1
  unfold readSection
  rw [read_ok (has_of_le (by omega) (by omega)), read_ok (has_of_le (by omega) (by omega)),
    read_ok (has_of_le (by omega) (by omega))]
  rfl

theorem has_of_readSection {β : Type} {sec : Int} {f : APESection → Except Fault β} (h0 : 0 ≤ sec)
    (h : Safe (readSection d sec >>= f)) : d.Has sec 24 := by
  obtain ⟨s, hs, -⟩ := safe_bind.mp h
  have hsafe : Safe (readSection d sec) := ⟨s, hs⟩
  unfold readSection at hsafe
  have hle := (safe_read_bind.mp hsafe).1.2
  exact has_of_le h0 (by omega)

theorem SECTION_TEXT_length : SECTION_TEXT.length = 5 := rfl
theorem SECTION_RDATA_length : SECTION_RDATA.length = 6 := rfl
/-- What one section header leaves in the cache. -/
theorem cacheSection_ok {sec : Int} (info : APEInfo) (h : SectionFits d sec) :
    ∃ info', cacheSection d sec info = .ok info' ∧ info'.zipos_central_dir = info.zipos_central_dir ∧
      (0 ≤ info.data.offset → 0 ≤ info'.data.offset) := by
  obtain ⟨hname, hcached⟩ := h
  unfold cacheSection
  rw [memcmp_ok (hname.mono (by decide)), memcmp_ok (hname.mono (by decide)), memcmp_ok (hname.mono (by decide))]
  simp only [ok_bind]
  split
  · rename_i htext
    rw [readSection_ok (hcached (Or.inl htext))]
    exact ⟨_, rfl, rfl, id⟩
  split
  · rename_i hrdata
    rw [readSection_ok (hcached (Or.inr (Or.inl hrdata)))]
    exact ⟨_, rfl, rfl, id⟩
  split
  · rename_i hdata
    rw [readSection_ok (hcached (Or.inr (Or.inr hdata)))]
    exact ⟨_, rfl, rfl, fun _ => Int.natCast_nonneg _⟩
  · exact ⟨_, rfl, rfl, id⟩

theorem safe_cacheSection {sec : Int} {info : APEInfo} : Safe (cacheSection d sec info) ↔ SectionFits d sec := by
  refine ⟨?_, fun h => (cacheSection_ok info h).imp fun _ h => h.1⟩
  intro h
  unfold cacheSection at h
  obtain ⟨htext, h⟩ := safe_memcmp_bind.mp h
  rw [SECTION_TEXT_length] at htext
  have h0 := htext.1
  rw [safe_ite] at h
  by_cases ht : d.holds sec SECTION_TEXT = true
  · have hfull := has_of_readSection h0 (h.1 ht)
    exact ⟨hfull.mono (by decide), fun _ => hfull⟩
  obtain ⟨hrdata, h⟩ := safe_memcmp_bind.mp (h.2 ht)
  rw [SECTION_RDATA_length] at hrdata
  refine ⟨hrdata, ?_⟩
  rw [safe_ite] at h
  rintro (hn | hn | hn)
  · exact absurd hn ht
  · exact has_of_readSection h0 (h.1 hn)
  · by_cases hr : d.holds sec SECTION_RDATA = true
    · exact has_of_readSection h0 (h.1 hr)
    · obtain ⟨-, h⟩ := safe_memcmp_bind.mp (h.2 hr)
      rw [safe_ite] at h
      exact has_of_readSection h0 (h.1 hn)

/-- The section headers that are looked at. -/
theorem cacheSections_ok {n : Nat} {sec : Int} (info : APEInfo)
    (h : ∀ i : Nat, i < n → SectionFits d (sec + 40 * i)) :
    ∃ info', cacheSections d n sec info = .ok info' ∧ info'.zipos_central_dir = info.zipos_central_dir ∧
      (0 ≤ info.data.offset → 0 ≤ info'.data.offset) := by
  induction n generalizing sec info with
  | zero => exact ⟨info, rfl, rfl, id⟩
  | succ n ih =>
      obtain ⟨info₁, h1, hc1, hd1⟩ := cacheSection_ok info (by simpa using h 0 (by omega))
      obtain ⟨info₂, h2, hc2, hd2⟩ := @ih (sec + 40) info₁ fun i hi => by
        have := h (i + 1) (by omega)
        rwa [show sec + 40 * ((i + 1 : Nat) : Int) = sec + 40 + 40 * i by omega] at this
      unfold cacheSections
      rw [h1, ok_bind]
      exact ⟨info₂, h2, hc2.trans hc1, hd2 ∘ hd1⟩

theorem safe_cacheSections {n : Nat} {sec : Int} {info : APEInfo} :
    Safe (cacheSections d n sec info) ↔ ∀ i : Nat, i < n → SectionFits d (sec + 40 * i) := by
  refine ⟨?_, fun h => (cacheSections_ok info h).imp fun _ h => h.1⟩
  induction n generalizing sec info with
  | zero => exact fun _ i hi => by omega
  | succ n ih =>
      intro h
      unfold cacheSections at h
      obtain ⟨info₁, h1, h⟩ := safe_bind.mp h
      have hfirst := safe_cacheSection.mp ⟨info₁, h1⟩
      intro i hi
      cases i with
      | zero => simpa using hfirst
      | succ i =>
          have := ih h i (by omega)
          rwa [show sec + 40 * ((i + 1 : Nat) : Int) = sec + 40 + 40 * i by omega]

/-- The checks of the parser up to the machine type. -/
structure HeaderAccepted (d : Block) : Prop where
  ape : IsAPE d
  header : peOffset d + 24 ≤ d.size
  signature : d.holds (peOffset d) PE_SIGNATURE = true
  machine : d.word (peOffset d + 4) 2 = PE_MACHINE_AMD64 ∨ d.word (peOffset d + 4) 2 = PE_MACHINE_ARM64

/-- The optional header is one of 64 bits, which is the last check. -/
def IsPE32Plus (d : Block) : Prop := d.word (peOffset d + 24) 2 = 0x20B

/-- The section header number `i`. -/
def sectionHeader (d : Block) (i : Nat) : Int := peOffset d + 24 + d.word (peOffset d + 20) 2 + 40 * i

/-- The structures that are read without a check are inside the file: the magic of the optional header, and
for one of 64 bits the size of the image and the section headers that are looked at. -/
structure HeadersFit (d : Block) : Prop where
  detect : DetectFits d
  magic : HeaderAccepted d → peOffset d + 26 ≤ d.size
  image : HeaderAccepted d → IsPE32Plus d → peOffset d + 84 ≤ d.size
  sections : HeaderAccepted d → IsPE32Plus d → ∀ i, i < min (d.word (peOffset d + 6) 2) 16 →
    SectionFits d (sectionHeader d i)

/-- The parser behind the checks of the header. -/
def parseAccepted (d : Block) : Except Fault (Option APEInfo) := do
  let magic ← read d (peOffset d + 24) 2
  if magic ≠ 0x20B then .ok none
  else do
    let pe_size ← read d (peOffset d + 80) 4
    let info ← cacheSections d (min (d.word (peOffset d + 6) 2) 16) (sectionHeader d 0)
      { APEInfo.zero with
        preserve_zipos := true, is_cosmopolitan := d.holds 0 APE_MAGIC_COSMO, pe_offset := peOffset d
        pe_num_sections := d.word (peOffset d + 6) 2, pe_size := pe_size }
    parseTail d info

theorem PE_SIGNATURE_length : PE_SIGNATURE.length = 4 := rfl
theorem APE_MAGIC_COSMO_length : APE_MAGIC_COSMO.length = 6 := rfl

theorem parse_rejects (hdetect : DetectFits d) (h : ¬HeaderAccepted d) : e9_ape_parse d = .ok none := by
  obtain ⟨ape, hd, hape⟩ := detect_ok hdetect
  unfold e9_ape_parse
  split
  · rfl
  rw [hd, ok_bind]
  split
  · rfl
  rename_i hsize hnot
  have hisape : IsAPE d := hape.mp (by simpa using hnot)
  rw [memcmp_ok (has_of_le (by decide) (by rw [APE_MAGIC_COSMO_length]; omega)),
    read_ok (has_of_le (by decide) (by omega))]
  simp only [ok_bind]
  split
  · rfl
  rename_i hheader
  rw [memcmp_ok (has_of_le (by omega) (by rw [PE_SIGNATURE_length]; omega))]
  simp only [ok_bind]
  split
  · rfl
  rename_i hsig
  rw [findHeredoc_ok (by decide) (by decide)]
  simp only [ok_bind]
  rw [read_ok (has_of_le (by omega) (by omega)), read_ok (has_of_le (by omega) (by omega))]
  simp only [ok_bind]
  split
  · rfl
  · rename_i hmachine
    refine absurd ⟨hisape, by unfold peOffset; omega, by unfold peOffset; simpa using hsig, ?_⟩ h
    exact Classical.or_iff_not_imp_left.mpr fun h1 => Classical.not_not.mp fun h2 => hmachine ⟨h1, h2⟩

theorem parse_accepts (hdetect : DetectFits d) (h : HeaderAccepted d) : e9_ape_parse d = parseAccepted d := by
  obtain ⟨ape, hd, hape⟩ := detect_ok hdetect
  obtain ⟨hisape, hheader, hsig, hmachine⟩ := h
  have hsize := hisape.1
  unfold peOffset at hheader hsig hmachine
  unfold e9_ape_parse
  rw [if_neg (by omega), hd, ok_bind, hape.mpr hisape, Bool.not_true, if_neg (by decide),
    memcmp_ok (has_of_le (by decide) (by rw [APE_MAGIC_COSMO_length]; omega)),
    read_ok (has_of_le (by decide) (by omega))]
  simp only [ok_bind]
  rw [if_neg (by omega), memcmp_ok (has_of_le (by omega) (by rw [PE_SIGNATURE_length]; omega))]
  simp only [ok_bind, hsig, Bool.not_true, Bool.false_eq_true, if_false]
  rw [findHeredoc_ok (by decide) (by decide)]
  simp only [ok_bind]
  rw [read_ok (has_of_le (by omega) (by omega)), read_ok (has_of_le (by omega) (by omega))]
  simp only [ok_bind]
  rw [if_neg (by rintro ⟨h1, h2⟩; exact hmachine.elim h1 h2)]
  have h20 : (d.word 0x3C 4 : Int) + 4 + 20 = d.word 0x3C 4 + 24 := by omega
  have h2 : (d.word 0x3C 4 : Int) + 4 + 2 = d.word 0x3C 4 + 6 := by omega
  have h16 : (d.word 0x3C 4 : Int) + 4 + 16 = d.word 0x3C 4 + 20 := by omega
  have h56 : (d.word 0x3C 4 : Int) + 24 + 56 = d.word 0x3C 4 + 80 := by omega
  unfold parseAccepted sectionHeader peOffset
  rw [h20, h2, h16, h56, read_ok (show d.Has (d.word 0x3C 4 + 20) 2 from has_of_le (by omega) (by omega))]
  simp only [ok_bind, Int.natCast_zero, Int.mul_zero, Int.add_zero]

theorem sectionHeader_add (d : Block) (i : Nat) : sectionHeader d 0 + 40 * i = sectionHeader d i := by
  unfold sectionHeader
  omega

/-- Behind the checks, what is read is what `HeadersFit` speaks of. -/
theorem safe_parseAccepted (h : HeaderAccepted d) : Safe (parseAccepted d) ↔
    peOffset d + 26 ≤ d.size ∧ (IsPE32Plus d → peOffset d + 84 ≤ d.size ∧
      ∀ i, i < min (d.word (peOffset d + 6) 2) 16 → SectionFits d (sectionHeader d i)) := by
  have hhas : ∀ {k n : Nat}, d.Has (peOffset d + k) n ↔ peOffset d + k + n ≤ d.size := by
    intro k n
    unfold Block.Has
    omega
  unfold parseAccepted
  rw [safe_read_bind, safe_ite]
  change d.Has (peOffset d + (24 : Nat)) 2 ∧ _ ↔ _
  rw [hhas]
  refine and_congr Iff.rfl ?_
  constructor
  · rintro ⟨-, hsafe⟩ hplus
    obtain ⟨himage, hsafe⟩ := safe_read_bind.mp (hsafe (not_not_intro hplus))
    obtain ⟨info, hinfo, -⟩ := safe_bind.mp hsafe
    refine ⟨by have := himage.2; omega, ?_⟩
    have hall := safe_cacheSections.mp ⟨info, hinfo⟩
    exact fun i hi => sectionHeader_add d i ▸ hall i hi
  · intro hfits
    refine ⟨fun _ => safe_ok _, fun hplus => ?_⟩
    obtain ⟨himage, hall⟩ := hfits (Classical.not_not.mp hplus)
    rw [safe_read_bind]
    refine ⟨has_of_le (by omega) (by omega), ?_⟩
    obtain ⟨info, hinfo, hcentral, hdata⟩ := cacheSections_ok (d := d) _ fun i hi =>
      (sectionHeader_add d i).symm ▸ hall i hi
    rw [hinfo, ok_bind]
    obtain ⟨info', hinfo', -⟩ := parseTail_ok h.ape.1 (hdata (Int.le_refl 0)) hcentral
    exact ⟨_, hinfo'⟩

theorem safe_parse : Safe (e9_ape_parse d) ↔ HeadersFit d := by
  by_cases hdetect : DetectFits d
  · by_cases h : HeaderAccepted d
    · rw [parse_accepts hdetect h, safe_parseAccepted h]
      constructor
      · rintro ⟨h1, h2⟩
        exact ⟨hdetect, fun _ => h1, fun _ hp => (h2 hp).1, fun _ hp => (h2 hp).2⟩
      · intro hf
        exact ⟨hf.magic h, fun hp => ⟨hf.image h hp, hf.sections h hp⟩⟩
    · rw [parse_rejects hdetect h]
      exact iff_of_true (safe_ok _) ⟨hdetect, fun hc => absurd hc h, fun hc => absurd hc h, fun hc => absurd hc h⟩
  · refine iff_of_false ?_ fun hf => hdetect hf.detect
    intro hsafe
    unfold e9_ape_parse at hsafe
    rw [safe_ite] at hsafe
    by_cases hsize : d.size < 64
    · exact hdetect fun hmz => absurd hmz.1 (by omega)
    · obtain ⟨ape, hape, -⟩ := safe_bind.mp (hsafe.2 hsize)
      exact hdetect (safe_detect.mp ⟨ape, hape⟩)

/-- What the parser gives: the place of the central directory, where all checks pass. -/
theorem parse_ok (hf : HeadersFit d) : ∃ r, e9_ape_parse d = .ok r ∧
    (∀ info, r = some info → CentralDir d info.zipos_central_dir) ∧
    (r.isSome = true ↔ HeaderAccepted d ∧ IsPE32Plus d) := by
  by_cases h : HeaderAccepted d
  · rw [parse_accepts hf.detect h]
    have hmagic := hf.magic h
    unfold parseAccepted
    rw [read_ok (has_of_le (by omega) (by omega)), ok_bind]
    by_cases hplus : IsPE32Plus d
    · have himage := hf.image h hplus
      have hmagic' : d.word (peOffset d + 24) 2 = 0x20B := hplus
      rw [if_neg (not_not_intro hmagic'), read_ok (has_of_le (by omega) (by omega)), ok_bind]
      have hall : ∀ i : Nat, i < min (d.word (peOffset d + 6) 2) 16 → SectionFits d (sectionHeader d 0 + 40 * i) := by
        intro i hi
        rw [sectionHeader_add]
        exact hf.sections h hplus i hi
      obtain ⟨info, hinfo, hcentral, hdata⟩ := cacheSections_ok
        { APEInfo.zero with
          preserve_zipos := true, is_cosmopolitan := d.holds 0 APE_MAGIC_COSMO, pe_offset := peOffset d
          pe_num_sections := d.word (peOffset d + 6) 2, pe_size := d.word (peOffset d + 80) 4 } hall
      rw [hinfo, ok_bind]
      obtain ⟨info', hinfo', hc⟩ := parseTail_ok h.ape.1 (hdata (Int.le_refl 0)) hcentral
      refine ⟨_, hinfo', ?_, iff_of_true rfl ⟨h, hplus⟩⟩
      rintro _ ⟨⟩
      exact hc
    · have hmagic' : d.word (peOffset d + 24) 2 ≠ 0x20B := hplus
      rw [if_pos hmagic']
      exact ⟨none, rfl, fun _ hnone => (Option.some_ne_none _ hnone.symm).elim, iff_of_false (by decide) fun hc => hplus hc.2⟩
  · exact ⟨none, parse_rejects hf.detect h, fun _ hnone => (Option.some_ne_none _ hnone.symm).elim, iff_of_false (by decide) fun hc => h hc.1⟩

/-! ### The archive -/

/-- There is an entry of the central directory at `pos`. -/
def EntryAt (d : Block) (pos : Int) : Prop := pos + 46 < d.size ∧ d.holds pos ZIP_CENTRAL_MAGIC = true

/-- The position behind the entry at `pos`. -/
def entryEnd (d : Block) (pos : Int) : Int :=
  pos + (46 + d.word (pos + 28) 2 + d.word (pos + 30) 2 + d.word (pos + 32) 2)

/-- The position of entry number `k` of the directory at `central`. -/
def entryPos (d : Block) (central : Int) : Nat → Int
  | 0 => central
  | k + 1 => entryEnd d (entryPos d central k)

/-- The name of the entry at `pos` is inside the file. -/
def NameFits (d : Block) (pos : Int) : Prop := d.Has (pos + 46) (d.word (pos + 28) 2)

/-- The names of all entries of the central directory are inside the file. -/
def DirectoryFits (d : Block) : Prop := ∀ i, IsZipEnd d i → d.word (i + 16) 4 ≠ 0 →
  ∀ k, (∀ j ≤ k, EntryAt d (entryPos d (d.word (i + 16) 4) j)) → NameFits d (entryPos d (d.word (i + 16) 4) k)

theorem entryPos_nonneg {central : Int} (h : 0 ≤ central) (k : Nat) : 0 ≤ entryPos d central k := by
  induction k with
  | zero => exact h
  | succ k ih =>
      unfold entryPos entryEnd
      omega

theorem nextEntry_ok {pos : Int} (h0 : 0 ≤ pos) (h : pos + 46 < d.size) : nextEntry d pos = .ok (entryEnd d pos) := by
  unfold nextEntry
  rw [read_ok (has_of_le (by omega) (by omega)), read_ok (has_of_le (by omega) (by omega)),
    read_ok (has_of_le (by omega) (by omega))]
  rfl

/-- The counting loop reads inside the file and counts the entries. -/
theorem countEntries_ok {central : Int} (h0 : 0 ≤ central) {fuel k : Nat} (hpos : 0 < fuel)
    (hfuel : (d.size : Int) < fuel + entryPos d central k) (hbefore : ∀ j < k, EntryAt d (entryPos d central j)) :
    ∃ n, countEntries d fuel (entryPos d central k) k = .ok n ∧
      (∀ j < n, EntryAt d (entryPos d central j)) ∧ ¬EntryAt d (entryPos d central n) := by
  induction fuel generalizing k with
  | zero => omega
  | succ fuel ih =>
      have hk := entryPos_nonneg (d := d) h0 k
      unfold countEntries
      split
      · rename_i h
        rw [memcmp_ok (has_of_le hk (by rw [ZIP_CENTRAL_MAGIC_length]; omega)), ok_bind]
        split
        · rename_i hmagic
          exact ⟨k, rfl, hbefore, fun hc => by simp [hc.2] at hmagic⟩
        · rename_i hmagic
          rw [nextEntry_ok hk h, ok_bind]
          have hnext : entryPos d central (k + 1) = entryEnd d (entryPos d central k) := rfl
          have hgrow : entryPos d central k + 46 ≤ entryPos d central (k + 1) := by
            rw [hnext]
            unfold entryEnd
            omega
          rw [← hnext]
          refine ih (by omega) (by omega) ?_
          intro j hj
          by_cases hjk : j = k
          · rw [hjk]
            exact ⟨h, by simpa using hmagic⟩
          · exact hbefore j (by omega)
      · rename_i h
        exact ⟨k, rfl, hbefore, fun hc => h hc.1⟩

theorem readEntry_ok {pos : Int} (alloc : Bool) (h0 : 0 ≤ pos) (h : pos + 46 < d.size)
    (hname : alloc = true → NameFits d pos) : ∃ e, readEntry d pos alloc = .ok e := by
  unfold readEntry readName
  rw [read_ok (has_of_le (by omega) (by omega)), read_ok (has_of_le (by omega) (by omega)),
    read_ok (has_of_le (by omega) (by omega)), read_ok (has_of_le (by omega) (by omega)),
    read_ok (has_of_le (by omega) (by omega)), read_ok (has_of_le (by omega) (by omega))]
  simp only [ok_bind]
  cases alloc with
  | false => exact ⟨_, rfl⟩
  | true =>
      rw [if_pos rfl, copy_ok (hname rfl)]
      exact ⟨_, rfl⟩

theorem nameFits_of_readEntry {pos : Int} (h : Safe (readEntry d pos true)) : NameFits d pos := by
  unfold readEntry readName at h
  simp only [safe_read_bind, if_true] at h
  obtain ⟨-, -, -, -, -, -, h⟩ := h
  obtain ⟨a, h, -⟩ := safe_bind.mp h
  exact (safe_copy_bind.mp ⟨a, h⟩).1

/-- The filling loop over entries that were counted. -/
theorem fillEntries_ok {central : Int} (h0 : 0 ≤ central) (alloc : ZipAllocator) {n k : Nat}
    (hentries : ∀ j < k + n, EntryAt d (entryPos d central j))
    (hnames : ∀ j < k + n, NameFits d (entryPos d central j)) :
    ∃ entries, fillEntries d alloc n k (entryPos d central k) = .ok entries := by
  induction n generalizing k with
  | zero => exact ⟨_, rfl⟩
  | succ n ih =>
      have hk := entryPos_nonneg (d := d) h0 k
      have hat := hentries k (by omega)
      unfold fillEntries
      obtain ⟨e, he⟩ := readEntry_ok (alloc.malloc k) hk hat.1 fun _ => hnames k (by omega)
      obtain ⟨es, hes⟩ := ih (k := k + 1) (fun j hj => hentries j (by omega)) (fun j hj => hnames j (by omega))
      rw [if_pos hat.1, he, ok_bind, nextEntry_ok hk hat.1, ok_bind]
      change ∃ entries, (fillEntries d alloc n (k + 1) (entryPos d central (k + 1)) >>= _) = _
      rw [hes]
      exact ⟨_, rfl⟩

theorem names_of_fillEntries {central : Int} (h0 : 0 ≤ central) {calloc : Bool} {n k : Nat}
    (hentries : ∀ j < k + n, EntryAt d (entryPos d central j))
    (h : Safe (fillEntries d ⟨calloc, fun _ => true⟩ n k (entryPos d central k))) :
    ∀ j, k ≤ j → j < k + n → NameFits d (entryPos d central j) := by
  induction n generalizing k with
  | zero => exact fun j hj hlt => by omega
  | succ n ih =>
      have hk := entryPos_nonneg (d := d) h0 k
      have hat := hentries k (by omega)
      unfold fillEntries at h
      rw [if_pos hat.1] at h
      obtain ⟨e, he, h⟩ := safe_bind.mp h
      rw [nextEntry_ok hk hat.1, ok_bind] at h
      obtain ⟨es, hes, -⟩ := safe_bind.mp h
      intro j hj hlt
      by_cases hjk : j = k
      · rw [hjk]
        exact nameFits_of_readEntry ⟨e, he⟩
      · exact ih (k := k + 1) (fun j hj => hentries j (by omega)) ⟨es, hes⟩ j (by omega) (by omega)

theorem IsZipEnd.unique {i j : Int} (hi : IsZipEnd d i) (hj : IsZipEnd d j) : i = j := by
  by_contra hne
  rcases Int.lt_or_gt_of_ne hne with h | h
  · have := hi.last j h hj.high
    rw [hj.signature] at this
    cases this
  · have := hj.last i h hi.high
    rw [hi.signature] at this
    cases this

theorem CentralDir.nonneg {central : Int} (h : CentralDir d central) : 0 ≤ central := by
  rcases h with ⟨i, -, rfl⟩ | ⟨-, rfl⟩
  · exact Int.natCast_nonneg _
  · exact Int.le_refl 0

theorem zipos_list_ok {info : APEInfo} (hc : CentralDir d info.zipos_central_dir) (hf : DirectoryFits d)
    (alloc : ZipAllocator) : ∃ r, e9_ape_zipos_list d info alloc = .ok r := by
  have h0 := hc.nonneg
  unfold e9_ape_zipos_list
  split
  · exact ⟨none, rfl⟩
  rename_i hne
  obtain ⟨n, hn, hentries, -⟩ := countEntries_ok (d := d) h0 (show 0 < d.size + 1 by omega)
    (show (d.size : Int) < (d.size + 1 : Nat) + entryPos d info.zipos_central_dir 0 by unfold entryPos; omega)
    (fun j hj => by omega)
  change countEntries d (d.size + 1) info.zipos_central_dir 0 = .ok n at hn
  rw [hn, ok_bind]
  split
  · exact ⟨none, rfl⟩
  split
  · exact ⟨none, rfl⟩
  have hnames : ∀ j < 0 + n, NameFits d (entryPos d info.zipos_central_dir j) := by
    intro j hj
    rcases hc with ⟨i, hend, hcentral⟩ | ⟨-, hzero⟩
    · rw [hcentral] at hentries hne ⊢
      exact hf i hend (by omega) j fun k hk => hentries k (by omega)
    · exact absurd hzero hne
  obtain ⟨entries, hfill⟩ := fillEntries_ok h0 alloc (by simpa using hentries) hnames
  change fillEntries d alloc n 0 info.zipos_central_dir = .ok entries at hfill
  rw [hfill]
  exact ⟨_, rfl⟩

theorem zipos_exists_ok {info : APEInfo} (hc : CentralDir d info.zipos_central_dir) (hf : DirectoryFits d)
    (alloc : ZipAllocator) (path : Option (List UInt8)) : ∃ r, e9_ape_zipos_exists d info alloc path = .ok r := by
  unfold e9_ape_zipos_exists
  cases path with
  | none => exact ⟨false, rfl⟩
  | some path =>
      obtain ⟨r, hr⟩ := zipos_list_ok hc hf alloc
      simp only [hr, ok_bind]
      cases r with
      | none => exact ⟨false, rfl⟩
      | some entries => exact ⟨_, rfl⟩

/-- A listing that gives a result, with all the memory it asks for, has read the names of all entries. -/
theorem directoryFits_of_list {info : APEInfo} (hc : CentralDir d info.zipos_central_dir)
    (h : Safe (e9_ape_zipos_list d info ⟨true, fun _ => true⟩)) : DirectoryFits d := by
  have h0 := hc.nonneg
  intro i hend hne k hk
  rcases hc with ⟨j, hend', hcentral⟩ | ⟨hnone, -⟩
  · rw [hend'.unique hend] at hcentral
    unfold e9_ape_zipos_list at h
    rw [if_neg (by omega)] at h
    obtain ⟨n, hn, hentries, hlast⟩ := countEntries_ok (d := d) h0 (show 0 < d.size + 1 by omega)
      (show (d.size : Int) < (d.size + 1 : Nat) + entryPos d info.zipos_central_dir 0 by unfold entryPos; omega)
      (fun j hj => by omega)
    change countEntries d (d.size + 1) info.zipos_central_dir 0 = .ok n at hn
    rw [← hcentral] at hk ⊢
    have hkn : k < n := by
      by_contra hc
      exact hlast (hk n (by omega))
    rw [hn, ok_bind, if_neg (by omega), Bool.not_true, if_neg (by decide)] at h
    obtain ⟨entries, hfill, -⟩ := safe_bind.mp h
    exact names_of_fillEntries h0 (by simpa using hentries) ⟨entries, hfill⟩ k (by omega) (by omega)
  · exact absurd hend (hnone i)

/-! ### The session -/

/-- Detection, parsing, and the listing of the archive and the search in it on what was parsed. -/
def apeSession (d : Block) (alloc : ZipAllocator) (path : Option (List UInt8)) : Except Fault Unit := do
  let _ ← e9_ape_detect d
  match ← e9_ape_parse d with
  | none => .ok ()
  | some info => do
    let _ ← e9_ape_zipos_list d info alloc
    let _ ← e9_ape_zipos_exists d info alloc path
    .ok ()

/-- The parser stays inside the file and comes to an end exactly for the files whose headers fit, and, where
these are accepted, also the names of the archive. -/
theorem ape_reads_inside_iff (d : Block) : (∀ alloc path, Safe (apeSession d alloc path)) ↔
    HeadersFit d ∧ (HeaderAccepted d → IsPE32Plus d → DirectoryFits d) := by
  constructor
  · intro h
    obtain ⟨ape, -, hsafe⟩ := safe_bind.mp (h ⟨true, fun _ => true⟩ none)
    obtain ⟨r, hr, hsafe⟩ := safe_bind.mp hsafe
    have hf := safe_parse.mp ⟨r, hr⟩
    refine ⟨hf, fun haccepted hplus => ?_⟩
    obtain ⟨r', hr', hcentral, hsome⟩ := parse_ok hf
    rw [hr] at hr'
    cases hr'
    obtain ⟨info, rfl⟩ := Option.isSome_iff_exists.mp (hsome.mpr ⟨haccepted, hplus⟩)
    obtain ⟨l, hl, -⟩ := safe_bind.mp hsafe
    exact directoryFits_of_list (hcentral info rfl) ⟨l, hl⟩
  · rintro ⟨hf, hdir⟩ alloc path
    obtain ⟨ape, hape, -⟩ := detect_ok hf.detect
    obtain ⟨r, hr, hcentral, hsome⟩ := parse_ok hf
    unfold apeSession
    rw [hape, ok_bind, hr, ok_bind]
    cases r with
    | none => exact safe_ok _
    | some info =>
        obtain ⟨haccepted, hplus⟩ := hsome.mp rfl
        have hdf := hdir haccepted hplus
        obtain ⟨l, hl⟩ := zipos_list_ok (hcentral info rfl) hdf alloc
        obtain ⟨b, hb⟩ := zipos_exists_ok (hcentral info rfl) hdf alloc path
        simp only [hl, hb, ok_bind]
        exact safe_ok _

/-- An MZ header of 64 bytes that places the PE header at the end of 32 bits. -/
def wrappingMZ : Block := ⟨[0x4d, 0x5a] ++ List.replicate 58 0 ++ [0xfc, 0xff, 0xff, 0xff], by decide⟩

/-- The sum in the check of the detection is 0, and the signature is looked for far behind the file. -/
theorem wrappingMZ_unsafe : e9_ape_detect wrappingMZ = .error .outOfBounds ∧
    ¬∀ alloc path, Safe (apeSession wrappingMZ alloc path) := by
  have hdetect : e9_ape_detect wrappingMZ = .error .outOfBounds := by decide
  refine ⟨hdetect, fun h => ?_⟩
  obtain ⟨ape, hape, -⟩ := safe_bind.mp (h ⟨true, fun _ => true⟩ none)
  rw [hdetect] at hape
  cases hape

end E9Patch
