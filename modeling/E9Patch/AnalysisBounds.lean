import E9Patch.AnalysisModel
import E9Patch.ApeBounds

/-!
Which reads of the format detection and of the symbol parser stay inside the file. For each format, what is
asked of the file are the tables and strings that are read without a check, or behind a check whose sum
wraps around.
-/

namespace E9Patch
open Reader Bytes

variable {d : Block}

theorem ptr_nonneg (off : Int) : 0 ≤ ptr off := Int.emod_nonneg _ (by decide)

/-- A pointer into the file does not wrap around a little further on. -/
theorem ptr_add {off : Int} {n k : Nat} (h : d.Has off n) (hk : k < 2 ^ 62) : ptr (off + k) = off + k := by
  have hsize := d.size_lt
  have h1 := h.1
  have h2 := h.2
  unfold ptr
  omega

theorem ptr_ptr_add (off : Int) (k : Nat) : ptr (ptr off + k) = ptr (off + k) := by
  unfold ptr
  omega

/-! ### Strings -/

/-- The first `n` characters of the string at `off` are inside the file, up to its terminator. -/
def CStringUpTo (d : Block) (off : Int) (n : Nat) : Prop :=
  ∀ k < n, (∀ j < k, d.word (ptr (off + j)) 1 ≠ 0) → d.Has (ptr (off + k)) 1

/-- The string at `off` is inside the file, up to its terminator. -/
def CString (d : Block) (off : Int) : Prop := ∀ n, CStringUpTo d off n

theorem cStringUpTo_succ {off : Int} {n : Nat} : CStringUpTo d off (n + 1) ↔
    d.Has (ptr off) 1 ∧ (d.word (ptr off) 1 ≠ 0 → CStringUpTo d (off + 1) n) := by
  have hadd : ∀ j : Nat, off + 1 + (j : Int) = off + ((j + 1 : Nat) : Int) := by
    intro j
    omega
  constructor
  · intro h
    refine ⟨by simpa using h 0 (by omega) (fun j hj => by omega), fun hne k hk hj => ?_⟩
    rw [hadd]
    refine h (k + 1) (by omega) fun j hjk => ?_
    cases j with
    | zero => simpa using hne
    | succ j =>
        have := hj j (by omega)
        rwa [hadd] at this
  · rintro ⟨h0, h⟩ k hk hj
    cases k with
    | zero => simpa using h0
    | succ k =>
        rw [← hadd]
        refine h (by simpa using hj 0 (by omega)) k (by omega) fun j hjk => ?_
        rw [hadd]
        exact hj (j + 1) (by omega)

theorem safe_strncpy {off : Int} {n : Nat} : Safe (strncpy d off n) ↔ CStringUpTo d off n := by
  induction n generalizing off with
  | zero => exact iff_of_true (safe_ok _) fun k hk => by omega
  | succ n ih =>
      unfold strncpy
      rw [safe_read_bind, safe_ite, cStringUpTo_succ, ← ih]
      refine and_congr Iff.rfl ⟨fun h hne => ?_, fun h => ⟨fun _ => safe_ok _, fun hne => ?_⟩⟩
      · obtain ⟨s, hs, -⟩ := safe_bind.mp (h.2 hne)
        exact ⟨s, hs⟩
      · obtain ⟨s, hs⟩ := h hne
        rw [hs, ok_bind]
        exact safe_ok _

/-- Comparing a string reads no further than its terminator, and no more than it is compared with. -/
theorem strEquals_ok {s : List UInt8} {off : Int} {n : Nat} (h : CStringUpTo d off n) (hlen : s.length ≤ n)
    (hs : ∀ b ∈ s, b ≠ 0) : ∃ r, strEquals d off s = .ok r := by
  induction s generalizing off n with
  | nil => exact ⟨true, rfl⟩
  | cons b s ih =>
      cases n with
      | zero => simp at hlen
      | succ n =>
          obtain ⟨h0, h1⟩ := cStringUpTo_succ.mp h
          unfold strEquals
          rw [read_ok h0, ok_bind]
          split
          · exact ⟨false, rfl⟩
          · rename_i heq
            refine ih (h1 ?_) (by simpa using hlen) fun c hc => hs c (List.mem_cons_of_mem _ hc)
            rw [Classical.not_not.mp heq]
            exact fun hz => hs b List.mem_cons_self (UInt8.toNat_inj.mp hz)

/-- Comparing inside a structure that is all there. -/
theorem strEquals_has {s : List UInt8} {off : Int} (h : d.Has off s.length) : ∃ r, strEquals d off s = .ok r := by
  induction s generalizing off with
  | nil => exact ⟨true, rfl⟩
  | cons b s ih =>
      have h1 := h.1
      have h2 := h.2
      simp only [List.length_cons] at h2
      have hptr : ptr off = off := by
        have := ptr_add (k := 0) h (by decide)
        simpa using this
      unfold strEquals
      rw [hptr, read_ok (has_of_le h1 (by omega)), ok_bind]
      split
      · exact ⟨false, rfl⟩
      · exact ih (has_of_le (by omega) (by omega))

theorem strlen_ok {fuel : Nat} {off : Int} (h : CString d off) (hfuel : (d.size : Int) < fuel + ptr off) :
    ∃ s, strlen d fuel off = .ok s := by
  induction fuel generalizing off with
  | zero =>
      have := (cStringUpTo_succ.mp (h 1)).1.2
      omega
  | succ fuel ih =>
      obtain ⟨h0, -⟩ := cStringUpTo_succ.mp (h 1)
      unfold strlen
      rw [read_ok h0, ok_bind]
      split
      · exact ⟨[], rfl⟩
      · rename_i hne
        have hnext : ptr (off + 1) = ptr off + 1 := by
          have h1 : ptr (ptr off + 1) = ptr off + 1 := ptr_add (k := 1) h0 (by decide)
          have h2 : ptr (ptr off + 1) = ptr (off + 1) := ptr_ptr_add off 1
          rw [← h2, h1]
        obtain ⟨s, hs⟩ := @ih (off + 1) (fun n => (cStringUpTo_succ.mp (h (n + 1))).2 hne) (by omega)
        rw [hs]
        exact ⟨_, rfl⟩

theorem cString_of_strlen {fuel : Nat} {off : Int} (h : Safe (strlen d fuel off)) : CString d off := by
  induction fuel generalizing off with
  | zero => exact absurd h (not_safe_error _)
  | succ fuel ih =>
      unfold strlen at h
      obtain ⟨h0, h⟩ := safe_read_bind.mp h
      rw [safe_ite] at h
      intro n
      cases n with
      | zero => exact fun k hk => by omega
      | succ n =>
          refine cStringUpTo_succ.mpr ⟨h0, fun hne => ?_⟩
          obtain ⟨s, hs, -⟩ := safe_bind.mp (h.2 hne)
          exact ih ⟨s, hs⟩ n

/-! ### APE files -/

/-- There is an MZ header at `i` whose PE header has its signature. -/
def PeSignatureAt (d : Block) (i : Nat) : Prop :=
  d.word i 1 = 0x4d ∧ d.word (i + 1) 1 = 0x5a ∧ i + d.word (i + 0x3C) 4 + 4 < d.size ∧
    d.holds (i + d.word (i + 0x3C) 4) PE_SIGNATURE = true

theorem peAt_ok {i : Nat} {lookup : Bool} (h : i + 2 ≤ d.size) (hlookup : lookup = true → i + 64 ≤ d.size) :
    ∃ b, peAt d i lookup = .ok b ∧ (lookup = true → (b = true ↔ PeSignatureAt d i)) := by
  unfold peAt PeSignatureAt
  rw [read_ok (has_of_le (by omega) (by omega)), ok_bind]
  split
  · rename_i hm
    exact ⟨false, rfl, fun _ => by simp [hm]⟩
  rename_i hm
  rw [read_ok (has_of_le (by omega) (by omega)), ok_bind]
  split
  · rename_i hz
    refine ⟨false, rfl, fun hl => ?_⟩
    rcases hz with hz | hz
    · simp [hz]
    · simp [hl] at hz
  rename_i hz
  have hz' : d.word (i + 1) 1 = 0x5a := Classical.not_not.mp fun h => hz (Or.inl h)
  have hl : lookup = true := by
    cases lookup with
    | true => rfl
    | false => exact absurd (Or.inr rfl) hz
  have hle := hlookup hl
  rw [read_ok (has_of_le (by omega) (by omega)), ok_bind]
  split
  · rename_i hlt
    rw [memcmp_ok (has_of_le (by omega) (by rw [PE_SIGNATURE_length]; omega))]
    exact ⟨_, rfl, fun _ => by simp [Classical.not_not.mp hm, hz', hlt]⟩
  · rename_i hlt
    exact ⟨false, rfl, fun _ => by simp [hlt]⟩

theorem scanShell_ok {n i : Nat} {has_elf has_pe : Bool} (h : i + n + 4 ≤ d.size) :
    ∃ b, scanShell d n i has_elf has_pe = .ok b := by
  induction n generalizing i has_elf has_pe with
  | zero => exact ⟨false, rfl⟩
  | succ n ih =>
      unfold scanShell
      have helf : ∃ b, elfSeen d i has_elf = .ok b := by
        unfold elfSeen
        split
        · exact ⟨_, rfl⟩
        · exact ⟨_, memcmp_ok (has_of_le (by omega) (by rw [ELF_MAGIC_length]; omega))⟩
      have hpe : ∃ b, peSeen d i has_pe = .ok b := by
        unfold peSeen
        split
        · exact ⟨_, rfl⟩
        · obtain ⟨b, hb, -⟩ := @peAt_ok d i (decide (i + 64 < d.size)) (by omega) fun hd => by
            have := of_decide_eq_true hd
            omega
          exact ⟨b, hb⟩
      obtain ⟨e, he⟩ := helf
      obtain ⟨p, hp⟩ := hpe
      rw [he, ok_bind, hp, ok_bind]
      split
      · exact ⟨_, rfl⟩
      · exact ih (by omega)

theorem scanMZ_ok {fuel i : Nat} (hfuel : 4096 < fuel + i) (hpos : 0 < fuel) : ∃ b, scanMZ d fuel i = .ok b := by
  induction fuel generalizing i with
  | zero => omega
  | succ fuel ih =>
      unfold scanMZ
      split
      · rw [memcmp_ok (has_of_le (by omega) (by rw [ELF_MAGIC_length]; omega)), ok_bind]
        split
        · exact ⟨true, rfl⟩
        · exact ih (by omega) (by omega)
      · exact ⟨false, rfl⟩

/-- The test for an APE file is inside any file. -/
theorem is_ape_ok (d : Block) : ∃ b, e9_binary_is_ape d = .ok b ∧ (b = true → 64 ≤ d.size) := by
  unfold e9_binary_is_ape
  split
  · exact ⟨false, rfl, nofun⟩
  rename_i hsize
  rw [memcmp_ok (has_of_le (by decide) (by rw [APE_MAGIC_COSMO_length]; omega)), ok_bind]
  split
  · exact ⟨true, rfl, fun _ => by omega⟩
  rw [read_ok (has_of_le (by decide) (by omega)), ok_bind, read_ok (has_of_le (by decide) (by omega)), ok_bind]
  have hshell : ∃ b, isShellApe d (d.word 0 1) (d.word 1 1) = .ok b := by
    unfold isShellApe
    split
    · exact scanShell_ok (by omega)
    · exact ⟨_, rfl⟩
  obtain ⟨b, hb⟩ := hshell
  rw [hb, ok_bind]
  split
  · exact ⟨true, rfl, fun _ => by omega⟩
  split
  · obtain ⟨b', hb'⟩ := scanMZ_ok (d := d) (show 4096 < 4096 + 64 by decide) (by decide)
    exact ⟨b', hb', fun _ => by omega⟩
  · exact ⟨false, rfl, nofun⟩

theorem shellSize_ok {fuel i : Nat} (hfuel : 4096 < fuel + i) (hpos : 0 < fuel) :
    ∃ n, shellSize d fuel i = .ok n := by
  induction fuel generalizing i with
  | zero => omega
  | succ fuel ih =>
      unfold shellSize
      split
      · rename_i h
        rw [read_ok (has_of_le (by omega) (by omega)), ok_bind]
        split
        · rename_i hc
          rw [memcmp_ok (has_of_le (by omega) (by rw [ELF_MAGIC_length]; omega)), ok_bind]
          split
          · exact ⟨i, rfl⟩
          · exact ih (by omega) (by omega)
        · exact ih (by omega) (by omega)
      · exact ⟨0, rfl⟩

theorem findShellSize_ok (c₀ c₁ : Nat) : ∃ n, findShellSize d c₀ c₁ = .ok n := by
  unfold findShellSize
  split
  · exact shellSize_ok (by decide) (by decide)
  · exact ⟨0, rfl⟩

/-- The ELF header of an APE file: the first one in the part that is searched. -/
structure IsElfStart (d : Block) (i : Nat) : Prop where
  room : i < d.size - 4
  low : i < 65536
  magic : d.holds i ELF_MAGIC = true
  first : ∀ j < i, d.holds j ELF_MAGIC = false

/-- The search ends at the ELF header, if there is one. -/
theorem findApeElf_eq {fuel i : Nat} {bin : E9Binary} (hfuel : 65536 < fuel + i) (hpos : 0 < fuel)
    (hbefore : ∀ j < i, d.holds j ELF_MAGIC = false) :
    (∃ j, IsElfStart d j ∧ findApeElf d fuel i bin = apeElf d j bin) ∨
      (∀ j, ¬IsElfStart d j) ∧ findApeElf d fuel i bin = .ok bin := by
  induction fuel generalizing i with
  | zero => omega
  | succ fuel ih =>
      unfold findApeElf
      split
      · rename_i h
        rw [memcmp_ok (has_of_le (by omega) (by rw [ELF_MAGIC_length]; omega)), ok_bind]
        split
        · rename_i hmagic
          exact Or.inl ⟨i, ⟨h.1, h.2, hmagic, hbefore⟩, rfl⟩
        · rename_i hmagic
          refine ih (by omega) (by omega) fun j hj => ?_
          by_cases hji : j = i
          · rw [hji]
            simpa using hmagic
          · exact hbefore j (by omega)
      · rename_i h
        refine Or.inr ⟨fun j hj => ?_, rfl⟩
        have hroom := hj.room
        have hlow := hj.low
        have := hbefore j (by omega)
        rw [hj.magic] at this
        cases this

theorem IsElfStart.unique {i j : Nat} (hi : IsElfStart d i) (hj : IsElfStart d j) : i = j := by
  by_contra hne
  rcases Nat.lt_or_gt_of_ne hne with h | h
  · have := hj.first i h
    rw [hi.magic] at this
    cases this
  · have := hi.first j h
    rw [hj.magic] at this
    cases this

/-- Program header `j` of the table at `base`, as far as it is read. -/
def ProgramHeaderFits (d : Block) (base j : Nat) : Prop :=
  d.Has (ptr (base + j * 56 + 8)) 8 ∧ d.Has (ptr (base + j * 56 + 32)) 8

theorem safe_programHeaders {base n j max_end : Nat} : Safe (programHeaders d base n j max_end) ↔
    ((base + 56) % 2 ^ 64 ≤ d.size → ∀ k < n, ProgramHeaderFits d base (j + k)) := by
  induction n generalizing j max_end with
  | zero => exact iff_of_true (safe_ok _) fun _ k hk => by omega
  | succ n ih =>
      unfold programHeaders
      rw [safe_ite]
      constructor
      · rintro ⟨h, -⟩ hcheck k hk
        have h := h hcheck
        rw [safe_read_bind, safe_read_bind, ih] at h
        cases k with
        | zero => exact ⟨h.1, h.2.1⟩
        | succ k =>
            have := h.2.2 hcheck k (by omega)
            rwa [show j + 1 + k = j + (k + 1) by omega] at this
      · intro h
        refine ⟨fun hcheck => ?_, fun _ => safe_ok _⟩
        have h := h hcheck
        rw [safe_read_bind, safe_read_bind, ih]
        refine ⟨(h 0 (by omega)).1, (h 0 (by omega)).2, fun _ k hk => ?_⟩
        rw [show j + 1 + k = j + (k + 1) by omega]
        exact h (k + 1) (by omega)

/-- The program headers of the ELF header in an APE file are inside the file, where the check of the first one
lets them be read. -/
def ApeElfFits (d : Block) : Prop := ∀ i, IsElfStart d i → i + 64 < d.size → d.word (i + 4) 1 = 2 →
  (i + d.word (i + 32) 8 + 56) % 2 ^ 64 ≤ d.size → ∀ k < d.word (i + 56) 2,
    ProgramHeaderFits d (i + d.word (i + 32) 8) k

theorem safe_apeElf {i : Nat} {bin : E9Binary} : Safe (apeElf d i bin) ↔
    (i + 64 < d.size → d.word (i + 4) 1 = 2 → (i + d.word (i + 32) 8 + 56) % 2 ^ 64 ≤ d.size →
      ∀ k < d.word (i + 56) 2, ProgramHeaderFits d (i + d.word (i + 32) 8) k) := by
  unfold apeElf
  simp only
  rw [safe_ite]
  have hprog : Safe (programHeaders d (i + d.word (i + 32) 8) (d.word (i + 56) 2) 0 0) ↔
      ((i + d.word (i + 32) 8 + 56) % 2 ^ 64 ≤ d.size → ∀ k < d.word (i + 56) 2,
        ProgramHeaderFits d (i + d.word (i + 32) 8) k) := by
    rw [safe_programHeaders]
    simp only [Nat.zero_add]
  constructor
  · rintro ⟨h, -⟩ hroom hclass
    have h := h hroom
    rw [safe_read_bind, safe_ite] at h
    have h := h.2.1 hclass
    simp only [safe_read_bind] at h
    obtain ⟨-, -, -, h⟩ := h
    obtain ⟨m, hm, -⟩ := safe_bind.mp h
    exact hprog.mp ⟨m, hm⟩
  · intro h
    refine ⟨fun hroom => ?_, fun _ => safe_ok _⟩
    rw [safe_read_bind, safe_ite]
    refine ⟨has_of_le (by omega) (by omega), fun hclass => ?_, fun _ => safe_ok _⟩
    obtain ⟨m, hm⟩ := hprog.mpr (h hroom hclass)
    rw [read_ok (has_of_le (by omega) (by omega)), ok_bind, read_ok (has_of_le (by omega) (by omega)), ok_bind,
      read_ok (has_of_le (by omega) (by omega)), ok_bind, hm, ok_bind, read_ok (has_of_le (by omega) (by omega)),
      ok_bind]
    exact safe_ok _

/-- The PE header of an APE file: that of the first MZ header that leads to a signature. -/
structure IsPeStart (d : Block) (i : Nat) : Prop where
  room : i < d.size - 64
  signature : PeSignatureAt d i
  first : ∀ j < i, ¬PeSignatureAt d j

theorem findApePe_eq {fuel i : Nat} {bin : E9Binary} (hfuel : d.size < fuel + i) (hpos : 0 < fuel)
    (hbefore : ∀ j < i, ¬PeSignatureAt d j) :
    (∃ j, IsPeStart d j ∧ findApePe d fuel i bin = apePe d j bin) ∨
      (∀ j, ¬IsPeStart d j) ∧ findApePe d fuel i bin = .ok bin := by
  induction fuel generalizing i with
  | zero => omega
  | succ fuel ih =>
      unfold findApePe
      split
      · rename_i h
        obtain ⟨b, hb, hiff⟩ := @peAt_ok d i true (by omega) fun _ => by omega
        rw [hb, ok_bind]
        split
        · rename_i hpe
          exact Or.inl ⟨i, ⟨h, (hiff rfl).mp hpe, hbefore⟩, rfl⟩
        · rename_i hpe
          refine ih (by omega) (by omega) fun j hj => ?_
          by_cases hji : j = i
          · rw [hji]
            exact fun hs => hpe ((hiff rfl).mpr hs)
          · exact hbefore j (by omega)
      · rename_i h
        refine Or.inr ⟨fun j hj => ?_, rfl⟩
        have hroom := hj.room
        exact hbefore j (by omega) hj.signature

theorem IsPeStart.unique {i j : Nat} (hi : IsPeStart d i) (hj : IsPeStart d j) : i = j := by
  by_contra hne
  rcases Nat.lt_or_gt_of_ne hne with h | h
  · exact hj.first i h hi.signature
  · exact hi.first j h hj.signature

theorem peSections_ok (n sec_table max_end : Nat) : ∃ m, peSections d n sec_table max_end = .ok m := by
  induction n generalizing sec_table max_end with
  | zero => exact ⟨max_end, rfl⟩
  | succ n ih =>
      unfold peSections
      split
      · rw [read_ok (has_of_le (by omega) (by omega)), ok_bind, read_ok (has_of_le (by omega) (by omega)), ok_bind]
        exact ih _ _
      · exact ⟨max_end, rfl⟩

/-- The file header behind the PE signature in an APE file is inside the file, as far as it is read. -/
def ApePeFits (d : Block) : Prop := ∀ i, IsPeStart d i → i + d.word (i + 0x3C) 4 + 22 ≤ d.size

theorem safe_apePe {i : Nat} {bin : E9Binary} (h : i < d.size - 64) :
    Safe (apePe d i bin) ↔ i + d.word (i + 0x3C) 4 + 22 ≤ d.size := by
  unfold apePe
  rw [read_ok (has_of_le (by omega) (by omega)), ok_bind, safe_read_bind, safe_read_bind]
  constructor
  · rintro ⟨-, h2, -⟩
    have := h2.2
    omega
  · intro hle
    refine ⟨has_of_le (by omega) (by omega), has_of_le (by omega) (by omega), ?_⟩
    obtain ⟨m, hm⟩ := peSections_ok (d := d) (d.word (i + d.word (i + 0x3C) 4 + 6) 2)
      (i + d.word (i + 0x3C) 4 + 24 + d.word (i + d.word (i + 0x3C) 4 + 20) 2) 0
    rw [hm, ok_bind]
    exact safe_ok _

theorem zipStart_ok {central fuel j : Nat} (hfuel : d.size < fuel + j) (hpos : 0 < fuel) :
    ∃ n, zipStart d central fuel j = .ok n := by
  induction fuel generalizing j with
  | zero => omega
  | succ fuel ih =>
      unfold zipStart
      split
      · rw [memcmp_ok (has_of_le (by omega) (by rw [ZIP_LOCAL_MAGIC_length]; omega)), ok_bind]
        split
        · exact ⟨j, rfl⟩
        · exact ih (by omega) (by omega)
      · exact ⟨0, rfl⟩

/-- The search for the archive does not touch what the other searches found. -/
theorem findZip_ok {fuel i : Nat} {bin : E9Binary} (hfuel : i < fuel) (hi : i + 22 ≤ d.size) :
    ∃ bin', findZip d fuel i bin = .ok bin' ∧ bin'.format = bin.format := by
  induction fuel generalizing i with
  | zero => omega
  | succ fuel ih =>
      unfold findZip
      split
      · rename_i h
        rw [memcmp_ok (has_of_le (by omega) (by rw [ZIP_END_MAGIC_length]; omega)), ok_bind]
        split
        · rw [read_ok (has_of_le (by omega) (by omega)), ok_bind, read_ok (has_of_le (by omega) (by omega)), ok_bind]
          obtain ⟨n, hn⟩ := @zipStart_ok d (d.word (i + 16) 4) (d.size + 1) 0 (by omega) (by omega)
          rw [hn, ok_bind]
          exact ⟨_, rfl, rfl⟩
        · exact ih (by omega) (by omega)
      · exact ⟨bin, rfl, rfl⟩

theorem apeElf_format {i : Nat} {bin bin' : E9Binary} (h : apeElf d i bin = .ok bin') : bin'.format = bin.format := by
  unfold apeElf at h
  simp only at h
  split at h
  · obtain ⟨ei_class, -, h⟩ := of_bind h
    split at h
    · obtain ⟨entry, -, h⟩ := of_bind h
      obtain ⟨phoff, -, h⟩ := of_bind h
      obtain ⟨phnum, -, h⟩ := of_bind h
      obtain ⟨max_end, -, h⟩ := of_bind h
      obtain ⟨machine, -, h⟩ := of_bind h
      cases h
      rfl
    · cases h
      rfl
  · cases h
    rfl

theorem apePe_format {i : Nat} {bin bin' : E9Binary} (h : apePe d i bin = .ok bin') : bin'.format = bin.format := by
  unfold apePe at h
  obtain ⟨pe_off, -, h⟩ := of_bind h
  obtain ⟨num_sections, -, h⟩ := of_bind h
  obtain ⟨opt_hdr_size, -, h⟩ := of_bind h
  obtain ⟨max_end, -, h⟩ := of_bind h
  cases h
  rfl

theorem safe_findApeElf (bin : E9Binary) : Safe (findApeElf d 65537 0 bin) ↔ ApeElfFits d := by
  rcases @findApeElf_eq d 65537 0 bin (by decide) (by decide) (fun j hj => by omega) with ⟨j, hj, heq⟩ | ⟨hnone, heq⟩
  · rw [heq, safe_apeElf]
    constructor
    · intro h i hi
      rw [hi.unique hj]
      exact h
    · exact fun h => h j hj
  · rw [heq]
    exact iff_of_true (safe_ok _) fun i hi => absurd hi (hnone i)

theorem safe_findApePe (bin : E9Binary) : Safe (findApePe d (d.size + 1) 0 bin) ↔ ApePeFits d := by
  rcases @findApePe_eq d (d.size + 1) 0 bin (by omega) (by omega) (fun j hj => by omega) with
    ⟨j, hj, heq⟩ | ⟨hnone, heq⟩
  · rw [heq, safe_apePe hj.room]
    constructor
    · intro h i hi
      rw [hi.unique hj]
      exact h
    · exact fun h => h j hj
  · rw [heq]
    exact iff_of_true (safe_ok _) fun i hi => absurd hi (hnone i)

theorem findApeElf_format {bin bin' : E9Binary} (h : findApeElf d 65537 0 bin = .ok bin') :
    bin'.format = bin.format := by
  rcases @findApeElf_eq d 65537 0 bin (by decide) (by decide) (fun j hj => by omega) with ⟨j, -, heq⟩ | ⟨-, heq⟩
  · rw [heq] at h
    exact apeElf_format h
  · rw [heq] at h
    cases h
    rfl

theorem findApePe_format {bin bin' : E9Binary} (h : findApePe d (d.size + 1) 0 bin = .ok bin') :
    bin'.format = bin.format := by
  rcases @findApePe_eq d (d.size + 1) 0 bin (by omega) (by omega) (fun j hj => by omega) with ⟨j, -, heq⟩ | ⟨-, heq⟩
  · rw [heq] at h
    exact apePe_format h
  · rw [heq] at h
    cases h
    rfl

/-- What the detection of an APE file reads is inside the file just if the two headers that it follows are. -/
theorem safe_detect_ape {bin : E9Binary} (hsize : 64 ≤ d.size) :
    Safe (detect_ape d bin) ↔ ApeElfFits d ∧ ApePeFits d := by
  unfold detect_ape
  simp only
  obtain ⟨shell_size, hshell⟩ := findShellSize_ok (d := d) (d.word 0 1) (d.word 1 1)
  rw [read_ok (has_of_le (by decide) (by omega)), ok_bind, read_ok (has_of_le (by decide) (by omega)), ok_bind,
    hshell, ok_bind]
  constructor
  · intro h
    obtain ⟨bin₁, h₁, h⟩ := safe_bind.mp h
    obtain ⟨bin₂, h₂, -⟩ := safe_bind.mp h
    exact ⟨(safe_findApeElf _).mp ⟨bin₁, h₁⟩, (safe_findApePe _).mp ⟨bin₂, h₂⟩⟩
  · rintro ⟨helf, hpe⟩
    refine ((safe_findApeElf _).mpr helf).bind fun bin₁ _ => ((safe_findApePe _).mpr hpe).bind fun bin₂ _ => ?_
    obtain ⟨bin₃, h₃, -⟩ := @findZip_ok d (d.size + 1) (d.size - 22) bin₂ (by omega) (by omega)
    rw [h₃, ok_bind]
    exact safe_ok _

/-- The parser of symbols then sees an APE file. -/
theorem detect_ape_format {bin bin' : E9Binary} {r : Int} (hsize : 64 ≤ d.size)
    (h : detect_ape d bin = .ok (r, bin')) : bin'.format = .APE := by
  unfold detect_ape at h
  simp only at h
  obtain ⟨c₀, -, h⟩ := of_bind h
  obtain ⟨c₁, -, h⟩ := of_bind h
  obtain ⟨shell_size, -, h⟩ := of_bind h
  obtain ⟨bin₁, h₁, h⟩ := of_bind h
  obtain ⟨bin₂, h₂, h⟩ := of_bind h
  obtain ⟨bin₃, h₃, h⟩ := of_bind h
  obtain ⟨bin₄, h₄, hformat⟩ := @findZip_ok d (d.size + 1) (d.size - 22) bin₂ (by omega) (by omega)
  have hbin : bin₄ = bin₃ := Except.ok.inj (h₄.symm.trans h₃)
  cases h
  rw [← hbin, hformat, findApePe_format h₂, findApeElf_format h₁]

end E9Patch
