import E9Patch.AnalysisBounds

/-!
What has to be inside a file for the format detection and the symbol parser to read nothing else, for each
format. The tables of an ELF file and the strings that they refer to are read behind checks of their
ends only, the optional header of a PE file behind none.
-/

namespace E9Patch
open Reader Bytes

variable {d : Block} {t : SectionTable}

/-! ### Fields -/

/-- A field further on in a structure that starts inside the file. -/
theorem has_field {off : Int} {n : Nat} (k m : Nat) {e : Nat} (h : d.Has off n) (hk : k < 2 ^ 62) (he : k + m = e) :
    d.Has (ptr (off + k)) m ↔ d.Has off e := by
  subst he
  rw [ptr_add h hk]
  have hnonneg := h.1
  unfold Block.Has
  constructor
  · rintro ⟨-, hend⟩
    exact ⟨hnonneg, by push_cast; omega⟩
  · rintro ⟨-, hend⟩
    push_cast at hend
    exact ⟨by omega, by omega⟩

/-- The section header table of an ELF file. -/
def elfTable (d : Block) : SectionTable := ⟨d.word 40 8, d.word 58 2, d.word 60 2, d.word 62 2⟩

theorem readSectionTable_ok (hsize : 64 ≤ d.size) : readSectionTable d = .ok (elfTable d) := by
  unfold readSectionTable elfTable
  rw [read_ok (has_of_le (by decide) (by omega)), ok_bind, read_ok (has_of_le (by decide) (by omega)), ok_bind,
    read_ok (has_of_le (by decide) (by omega)), ok_bind, read_ok (has_of_le (by decide) (by omega)), ok_bind]

/-! ### Sections of an ELF file -/

/-- Header and name of section `i`, as far as they are read. -/
def ElfSectionFits (d : Block) (t : SectionTable) (strtab_off strtab_size i : Nat) : Prop :=
  d.Has (t.row i) 40 ∧ (d.word (t.row i) 4 < strtab_size → CStringUpTo d (strtab_off + d.word (t.row i) 4) 31)

theorem sectionHeader_has {i : Nat} : (d.Has (t.row i) 4 ∧ d.Has (ptr (t.row i + (16 : Nat))) 8 ∧
    d.Has (ptr (t.row i + (32 : Nat))) 8 ∧ d.Has (ptr (t.row i + (8 : Nat))) 8) ↔ d.Has (t.row i) 40 := by
  constructor
  · rintro ⟨h, -, h32, -⟩
    exact (has_field 32 8 h (by decide) rfl).mp h32
  · intro h
    exact ⟨h.mono (by decide), (has_field 16 8 h (by decide) rfl).mpr (h.mono (by decide)),
      (has_field 32 8 h (by decide) rfl).mpr h, (has_field 8 8 h (by decide) rfl).mpr (h.mono (by decide))⟩

theorem debugPrefix_short : DEBUG_PREFIX.length ≤ 31 := by decide

theorem debugPrefix_chars : ∀ b ∈ DEBUG_PREFIX, b ≠ 0 := by simp [DEBUG_PREFIX]

theorem safe_detectSections {strtab_off strtab_size n i : Nat} {alloc : Bool} {bin : E9Binary}
    (h : ∀ k < n, ElfSectionFits d t strtab_off strtab_size (i + k)) :
    Safe (detectSections d t strtab_off strtab_size alloc n i bin) := by
  induction n generalizing i bin with
  | zero => exact safe_ok _
  | succ n ih =>
      have hrest : ∀ k < n, ElfSectionFits d t strtab_off strtab_size (i + 1 + k) := by
        intro k hk
        rw [show i + 1 + k = i + (k + 1) by omega]
        exact h (k + 1) (by omega)
      obtain ⟨hhdr, hname⟩ := h 0 (by omega)
      rw [Nat.add_zero] at hhdr hname
      obtain ⟨h0, h16, h32, h8⟩ := sectionHeader_has.mpr hhdr
      unfold detectSections
      rw [safe_read_bind, safe_read_bind, safe_read_bind, safe_read_bind, safe_ite]
      refine ⟨h0, h16, h32, h8, fun hlt => ?_, fun _ => ih hrest⟩
      obtain ⟨debug, hdebug⟩ := strEquals_ok (s := DEBUG_PREFIX) (hname hlt) debugPrefix_short debugPrefix_chars
      rw [hdebug, ok_bind, safe_ite]
      exact ⟨fun _ => (safe_strncpy.mpr (hname hlt)).bind fun name _ => ih hrest, fun _ => ih hrest⟩

theorem fits_of_detectSections {strtab_off strtab_size n i : Nat} {bin : E9Binary}
    (h : Safe (detectSections d t strtab_off strtab_size true n i bin)) :
    ∀ k < n, ElfSectionFits d t strtab_off strtab_size (i + k) := by
  induction n generalizing i bin with
  | zero => exact fun k hk => by omega
  | succ n ih =>
      unfold detectSections at h
      rw [safe_read_bind, safe_read_bind, safe_read_bind, safe_read_bind, safe_ite] at h
      obtain ⟨h0, h16, h32, h8, hlt, hge⟩ := h
      have hhdr := sectionHeader_has.mp ⟨h0, h16, h32, h8⟩
      have hboth : (d.word (t.row i) 4 < strtab_size → CStringUpTo d (strtab_off + d.word (t.row i) 4) 31) ∧
          ∀ k < n, ElfSectionFits d t strtab_off strtab_size (i + 1 + k) := by
        by_cases hname : d.word (t.row i) 4 < strtab_size
        · obtain ⟨debug, -, h⟩ := safe_bind.mp (hlt hname)
          rw [if_pos rfl] at h
          obtain ⟨name, hcopy, h⟩ := safe_bind.mp h
          exact ⟨fun _ => safe_strncpy.mp ⟨name, hcopy⟩, ih h⟩
        · exact ⟨fun hc => absurd hc hname, ih (hge hname)⟩
      intro k hk
      cases k with
      | zero => exact ⟨hhdr, hboth.1⟩
      | succ k =>
          rw [show i + (k + 1) = i + 1 + k by omega]
          exact hboth.2 k (by omega)

/-- The section headers are gone over. -/
def SectionTable.Accepted (d : Block) (t : SectionTable) : Prop :=
  t.shoff ≠ 0 ∧ t.shnum ≠ 0 ∧ t.shstrndx < t.shnum ∧ t.tableEnd ≤ d.size

/-- The file offset in the header of section `i`. -/
def SectionTable.offset (d : Block) (t : SectionTable) (i : Nat) : Nat := d.word (ptr (t.row i + 24)) 8

/-- The size in the header of section `i`. -/
def SectionTable.size (d : Block) (t : SectionTable) (i : Nat) : Nat := d.word (ptr (t.row i + 32)) 8

/-- What is read of the sections is inside the file. -/
def SectionsFit (d : Block) (t : SectionTable) : Prop := t.Accepted d →
  d.Has (ptr (t.row t.shstrndx + 24)) 8 ∧ d.Has (ptr (t.row t.shstrndx + 32)) 8 ∧
    ((t.offset d t.shstrndx + t.size d t.shstrndx) % 2 ^ 64 ≤ d.size →
      ∀ i < t.shnum, ElfSectionFits d t (t.offset d t.shstrndx) (t.size d t.shstrndx) i)

theorem safe_detectSectionTable {alloc : Bool} {bin : E9Binary} (h : SectionsFit d t) :
    Safe (detectSectionTable d t alloc bin) := by
  unfold detectSectionTable
  rw [safe_ite]
  refine ⟨fun haccept => ?_, fun _ => safe_ok _⟩
  obtain ⟨h24, h32, h⟩ := h haccept
  rw [safe_read_bind, safe_read_bind, safe_ite]
  refine ⟨h24, h32, fun hend => safe_detectSections fun k hk => ?_, fun _ => safe_ok _⟩
  rw [Nat.zero_add]
  exact h hend k hk

theorem fits_of_detectSectionTable {bin : E9Binary} (h : Safe (detectSectionTable d t true bin)) :
    SectionsFit d t := by
  intro haccept
  unfold detectSectionTable at h
  rw [safe_ite] at h
  have h := h.1 haccept
  rw [safe_read_bind, safe_read_bind, safe_ite] at h
  obtain ⟨h24, h32, h, -⟩ := h
  refine ⟨h24, h32, fun hend i hi => ?_⟩
  have := fits_of_detectSections (h hend) i hi
  rwa [Nat.zero_add] at this

theorem detectSections_format {strtab_off strtab_size n i : Nat} {alloc : Bool} {bin bin' : E9Binary}
    (h : detectSections d t strtab_off strtab_size alloc n i bin = .ok bin') : bin'.format = bin.format := by
  induction n generalizing i bin with
  | zero =>
      cases h
      rfl
  | succ n ih =>
      unfold detectSections at h
      obtain ⟨name_off, -, h⟩ := of_bind h
      obtain ⟨addr, -, h⟩ := of_bind h
      obtain ⟨size, -, h⟩ := of_bind h
      obtain ⟨flags, -, h⟩ := of_bind h
      split at h
      · obtain ⟨debug, -, h⟩ := of_bind h
        simp only at h
        split at h
        · obtain ⟨name, -, h⟩ := of_bind h
          rw [ih h]
        · rw [ih h]
      · exact ih h

theorem detectSectionTable_format {alloc : Bool} {bin bin' : E9Binary}
    (h : detectSectionTable d t alloc bin = .ok bin') : bin'.format = bin.format := by
  unfold detectSectionTable at h
  split at h
  · obtain ⟨strtab_off, -, h⟩ := of_bind h
    obtain ⟨strtab_size, -, h⟩ := of_bind h
    split at h
    · exact detectSections_format h
    · cases h
      rfl
  · cases h
    rfl

/-- The file is taken for an ELF file. -/
def IsElf (d : Block) : Prop :=
  e9_binary_is_ape d = .ok false ∧ 64 ≤ d.size ∧ d.holds 0 ELF_MAGIC = true ∧ d.word 4 1 = 2

/-! ### Symbols of an ELF file -/

/-- The section header is that of a symbol table that replaces the choice `s`. -/
def Chosen (d : Block) (t : SectionTable) (i : Nat) (s : SymTab) : Prop :=
  d.word (ptr (t.row i + 4)) 4 = 2 ∨ d.word (ptr (t.row i + 4)) 4 = 11 ∧ s.symtab_off = 0

instance (i : Nat) (s : SymTab) : Decidable (Chosen d t i s) := by unfold Chosen; exact inferInstance

/-- The section that section `i` is linked to. -/
def SectionTable.link (d : Block) (t : SectionTable) (i : Nat) : Nat := d.word (ptr (t.row i + 40)) 4

/-- The choice after section header `i`. -/
def chosenTab (d : Block) (t : SectionTable) (i : Nat) (s : SymTab) : SymTab :=
  if Chosen d t i s then
    { symtab_off := t.offset d i, symtab_size := t.size d i, symtab_entsize := d.word (ptr (t.row i + 56)) 4
      strtab_off := if t.link d i < t.shnum then t.offset d (t.link d i) else s.strtab_off }
  else s

/-- The choice after the first `n` section headers. -/
def chosenUpTo (d : Block) (t : SectionTable) : Nat → SymTab
  | 0 => ⟨0, 0, 24, 0⟩
  | n + 1 => chosenTab d t n (chosenUpTo d t n)

/-- Section header `i` is inside the file, as far as the search for the symbol table reads it, as is the
header of the string table. -/
def LinkFits (d : Block) (t : SectionTable) (i : Nat) : Prop :=
  d.Has (t.row i) 8 ∧ (Chosen d t i (chosenUpTo d t i) → d.Has (t.row i) 60 ∧
    (t.link d i < t.shnum → d.Has (ptr (t.row (t.link d i) + 24)) 8))

theorem linkHeader_has {i : Nat} (h : d.Has (t.row i) 8) : (d.Has (ptr (t.row i + (24 : Nat))) 8 ∧
    d.Has (ptr (t.row i + (32 : Nat))) 8 ∧ d.Has (ptr (t.row i + (56 : Nat))) 4 ∧
    d.Has (ptr (t.row i + (40 : Nat))) 4) ↔ d.Has (t.row i) 60 := by
  constructor
  · rintro ⟨-, -, h56, -⟩
    exact (has_field 56 4 h (by decide) rfl).mp h56
  · intro h60
    exact ⟨(has_field 24 8 h (by decide) rfl).mpr (h60.mono (by decide)),
      (has_field 32 8 h (by decide) rfl).mpr (h60.mono (by decide)), (has_field 56 4 h (by decide) rfl).mpr h60,
      (has_field 40 4 h (by decide) rfl).mpr (h60.mono (by decide))⟩

theorem chooseSymTab_eq {i : Nat} {s s' : SymTab} (h : chooseSymTab d t i s = .ok s') : s' = chosenTab d t i s := by
  have hsafe : Safe (chooseSymTab d t i s) := ⟨s', h⟩
  unfold chooseSymTab at h hsafe
  simp only at h hsafe
  rw [safe_read_bind, safe_read_bind] at hsafe
  obtain ⟨h4, h0, hsafe⟩ := hsafe
  rw [read_ok h4, ok_bind, read_ok h0, ok_bind] at h
  unfold chosenTab
  split at h
  · rename_i hchosen
    rw [if_pos hchosen] at hsafe
    rw [if_pos (show Chosen d t i s from hchosen)]
    rw [safe_read_bind, safe_read_bind, safe_read_bind, safe_read_bind, safe_ite] at hsafe
    obtain ⟨h24, h32, h56, h40, hlink, -⟩ := hsafe
    rw [read_ok h24, ok_bind, read_ok h32, ok_bind, read_ok h56, ok_bind, read_ok h40, ok_bind] at h
    split at h
    · rename_i hlt
      have hlink := hlink hlt
      rw [safe_read_bind] at hlink
      rw [read_ok hlink.1, ok_bind] at h
      rw [← Except.ok.inj h, if_pos (show t.link d i < t.shnum from hlt)]
      rfl
    · rename_i hge
      rw [← Except.ok.inj h, if_neg (show ¬t.link d i < t.shnum from hge)]
      rfl
  · rename_i hother
    rw [if_neg (show ¬Chosen d t i s from hother)]
    exact (Except.ok.inj h).symm

theorem safe_chooseSymTab {i : Nat} :
    Safe (chooseSymTab d t i (chosenUpTo d t i)) ↔ LinkFits d t i := by
  unfold chooseSymTab LinkFits
  simp only
  rw [safe_read_bind, safe_read_bind, safe_ite, safe_read_bind, safe_read_bind, safe_read_bind, safe_read_bind,
    safe_ite, safe_read_bind]
  constructor
  · rintro ⟨h4, h0, hchosen, -⟩
    have h8 : d.Has (t.row i) 8 := (has_field 4 4 h0 (by decide) rfl).mp h4
    refine ⟨h8, fun hc => ?_⟩
    obtain ⟨h24, h32, h56, h40, hlink, -⟩ := hchosen hc
    exact ⟨(linkHeader_has h8).mp ⟨h24, h32, h56, h40⟩, fun hlt => (hlink hlt).1⟩
  · rintro ⟨h8, hchosen⟩
    refine ⟨(has_field 4 4 h8 (by decide) rfl).mpr h8, h8.mono (by decide), fun hc => ?_, fun _ => safe_ok _⟩
    obtain ⟨h60, hlink⟩ := hchosen hc
    obtain ⟨h24, h32, h56, h40⟩ := (linkHeader_has h8).mpr h60
    exact ⟨h24, h32, h56, h40, fun hlt => ⟨hlink hlt, safe_ok _⟩, fun _ => safe_ok _⟩

theorem safe_chooseSymTabs {n i : Nat} :
    Safe (chooseSymTabs d t n i (chosenUpTo d t i)) ↔ ∀ k < n, LinkFits d t (i + k) := by
  induction n generalizing i with
  | zero => exact iff_of_true (safe_ok _) fun k hk => by omega
  | succ n ih =>
      unfold chooseSymTabs
      rw [safe_bind]
      constructor
      · rintro ⟨s, hs, h⟩ k hk
        have hfirst := safe_chooseSymTab.mp ⟨s, hs⟩
        rw [chooseSymTab_eq hs] at h
        cases k with
        | zero => exact hfirst
        | succ k =>
            have := (@ih (i + 1)).mp h k (by omega)
            rwa [show i + 1 + k = i + (k + 1) by omega] at this
      · intro h
        obtain ⟨s, hs⟩ := safe_chooseSymTab.mpr (h 0 (by omega))
        refine ⟨s, hs, ?_⟩
        rw [Nat.add_zero] at hs
        rw [chooseSymTab_eq hs]
        refine (@ih (i + 1)).mpr fun k hk => ?_
        rw [show i + 1 + k = i + (k + 1) by omega]
        exact h (k + 1) (by omega)

theorem chooseSymTabs_eq {n i : Nat} {s : SymTab} (h : chooseSymTabs d t n i (chosenUpTo d t i) = .ok s) :
    s = chosenUpTo d t (i + n) := by
  induction n generalizing i with
  | zero => exact (Except.ok.inj h).symm
  | succ n ih =>
      unfold chooseSymTabs at h
      obtain ⟨s₁, h₁, h⟩ := of_bind h
      rw [chooseSymTab_eq h₁] at h
      rw [@ih (i + 1) h, show i + 1 + n = i + (n + 1) by omega]

/-- Symbol `i` and its name, up to the terminator. -/
def ElfSymbolFits (d : Block) (s : SymTab) (i : Nat) : Prop :=
  let sym := ptr (s.symtab_off + i * s.symtab_entsize % 2 ^ 32)
  d.Has sym 24 ∧ (d.word sym 4 ≠ 0 → d.word (ptr (sym + 8)) 8 ≠ 0 → CString d (s.strtab_off + d.word sym 4))

theorem symbol_has {sym : Int} : (d.Has sym 4 ∧ d.Has (ptr (sym + (4 : Nat))) 1 ∧ d.Has (ptr (sym + (8 : Nat))) 8 ∧
    d.Has (ptr (sym + (16 : Nat))) 8) ↔ d.Has sym 24 := by
  constructor
  · rintro ⟨h, -, -, h16⟩
    exact (has_field 16 8 h (by decide) rfl).mp h16
  · intro h
    exact ⟨h.mono (by decide), (has_field 4 1 h (by decide) rfl).mpr (h.mono (by decide)),
      (has_field 8 8 h (by decide) rfl).mpr (h.mono (by decide)), (has_field 16 8 h (by decide) rfl).mpr h⟩

/-- An empty string is inside the file with its terminator. -/
theorem cString_of_empty {off : Int} (h : d.Has (ptr off) 1) (hempty : d.word (ptr off) 1 = 0) : CString d off := by
  intro n
  cases n with
  | zero => exact fun k hk => by omega
  | succ n => exact cStringUpTo_succ.mpr ⟨h, fun hne => absurd hempty hne⟩

theorem safe_readSymbol {s : SymTab} {alloc : AnalysisAllocator} {i : Nat} (h : ElfSymbolFits d s i) :
    Safe (readSymbol d s alloc i) := by
  obtain ⟨hsym, hname⟩ := h
  obtain ⟨h0, h4, h8, h16⟩ := symbol_has.mpr hsym
  unfold readSymbol
  simp only
  rw [safe_read_bind, safe_read_bind, safe_read_bind, safe_read_bind, safe_ite]
  refine ⟨h0, h4, h8, h16, fun _ => safe_ok _, fun hnonzero => ?_⟩
  have hstring := hname (fun hc => hnonzero (Or.inl hc)) fun hc => hnonzero (Or.inr hc)
  rw [safe_read_bind, safe_ite]
  refine ⟨(cStringUpTo_succ.mp (hstring 1)).1, fun _ => safe_ok _, fun _ => ?_⟩
  refine Safe.bind (strlen_ok hstring ?_) fun name _ => safe_ok _
  have hnonneg := ptr_nonneg (s.strtab_off + d.word (ptr (s.symtab_off + i * s.symtab_entsize % 2 ^ 32)) 4)
  omega

/-- An allocator that always succeeds. -/
def allocatesAll : AnalysisAllocator := ⟨true, fun _ => true, fun _ => true⟩

theorem fits_of_readSymbol {s : SymTab} {i : Nat} (h : Safe (readSymbol d s allocatesAll i)) : ElfSymbolFits d s i := by
  unfold readSymbol at h
  simp only at h
  rw [safe_read_bind, safe_read_bind, safe_read_bind, safe_read_bind, safe_ite] at h
  obtain ⟨h0, h4, h8, h16, -, h⟩ := h
  refine ⟨symbol_has.mp ⟨h0, h4, h8, h16⟩, fun hname hvalue => ?_⟩
  have h := h (not_or.mpr ⟨hname, hvalue⟩)
  rw [safe_read_bind, safe_ite] at h
  obtain ⟨hfirst, -, h⟩ := h
  by_cases hempty : d.word (ptr (s.strtab_off + d.word (ptr (s.symtab_off + i * s.symtab_entsize % 2 ^ 32)) 4)) 1 = 0
  · exact cString_of_empty hfirst hempty
  · have h := h (not_or.mpr ⟨hempty, by simp [allocatesAll]⟩)
    obtain ⟨name, hlen, -⟩ := safe_bind.mp h
    exact cString_of_strlen ⟨name, hlen⟩

theorem safe_readSymbols {s : SymTab} {alloc : AnalysisAllocator} {n i : Nat} {symbols : List Symbol}
    (h : ∀ k < n, ElfSymbolFits d s (i + k)) : Safe (readSymbols d s alloc n i symbols) := by
  induction n generalizing i symbols with
  | zero => exact safe_ok _
  | succ n ih =>
      unfold readSymbols
      refine (safe_readSymbol (h 0 (by omega))).bind fun symbol _ => ih fun k hk => ?_
      rw [show i + 1 + k = i + (k + 1) by omega]
      exact h (k + 1) (by omega)

theorem fits_of_readSymbols {s : SymTab} {n i : Nat} {symbols : List Symbol}
    (h : Safe (readSymbols d s allocatesAll n i symbols)) : ∀ k < n, ElfSymbolFits d s (i + k) := by
  induction n generalizing i symbols with
  | zero => exact fun k hk => by omega
  | succ n ih =>
      unfold readSymbols at h
      obtain ⟨symbol, hsymbol, h⟩ := safe_bind.mp h
      intro k hk
      cases k with
      | zero => exact fits_of_readSymbol ⟨symbol, hsymbol⟩
      | succ k =>
          rw [show i + (k + 1) = i + 1 + k by omega]
          exact ih h k (by omega)

/-- What is read of the symbol table and of the headers that lead to it is inside the file. -/
def SymbolsFit (d : Block) (t : SectionTable) : Prop := t.shoff ≠ 0 → t.shnum ≠ 0 → t.tableEnd ≤ d.size →
  d.Has (ptr (t.row t.shstrndx + 24)) 8 ∧ (∀ i < t.shnum, LinkFits d t i) ∧
    let s := chosenUpTo d t t.shnum
    s.symtab_off ≠ 0 → s.strtab_off ≠ 0 → s.symtab_entsize ≠ 0 →
      ∀ i < s.symtab_size / s.symtab_entsize % 2 ^ 32, ElfSymbolFits d s i

theorem safe_parse_elf_symbols {alloc : AnalysisAllocator} {bin : E9Binary} (hsize : 64 ≤ d.size)
    (h : SymbolsFit d (elfTable d)) : Safe (parse_elf_symbols d alloc bin) := by
  unfold parse_elf_symbols
  rw [readSectionTable_ok hsize, ok_bind, safe_ite]
  refine ⟨fun _ => safe_ok _, fun htable => ?_⟩
  obtain ⟨hshoff, hshnum, hend⟩ : (elfTable d).shoff ≠ 0 ∧ (elfTable d).shnum ≠ 0 ∧ (elfTable d).tableEnd ≤ d.size :=
    ⟨fun hc => htable (Or.inl hc), fun hc => htable (Or.inr (Or.inl hc)),
      Int.not_lt.mp fun hc => htable (Or.inr (Or.inr hc))⟩
  obtain ⟨h24, hlinks, hsymbols⟩ := h hshoff hshnum hend
  rw [safe_read_bind]
  refine ⟨h24, ?_⟩
  obtain ⟨s, hs⟩ := (@safe_chooseSymTabs d (elfTable d) (elfTable d).shnum 0).mpr fun k hk => by
    rw [Nat.zero_add]
    exact hlinks k hk
  have heq := chooseSymTabs_eq hs
  rw [Nat.zero_add] at heq
  rw [show chooseSymTabs d (elfTable d) (elfTable d).shnum 0 ⟨0, 0, 24, 0⟩ = .ok s from hs, ok_bind, safe_ite, safe_ite]
  refine ⟨fun _ => safe_ok _, fun htabs => ⟨fun _ => safe_ok _, fun hentsize => ?_⟩⟩
  obtain ⟨hsym, hstr⟩ := not_or.mp htabs
  rw [heq] at hsym hstr hentsize ⊢
  refine (safe_readSymbols fun k hk => ?_).bind fun symbols _ => safe_ok _
  rw [Nat.zero_add]
  exact hsymbols hsym hstr hentsize k hk

theorem fits_of_parse_elf_symbols {bin : E9Binary} (hsize : 64 ≤ d.size)
    (h : Safe (parse_elf_symbols d allocatesAll bin)) : SymbolsFit d (elfTable d) := by
  intro hshoff hshnum hend
  unfold parse_elf_symbols at h
  rw [readSectionTable_ok hsize, ok_bind, safe_ite] at h
  have h := h.2 (not_or.mpr ⟨hshoff, not_or.mpr ⟨hshnum, Int.not_lt.mpr hend⟩⟩)
  rw [safe_read_bind] at h
  obtain ⟨h24, h⟩ := h
  obtain ⟨s, hs, h⟩ := safe_bind.mp h
  have hlinks := (@safe_chooseSymTabs d (elfTable d) (elfTable d).shnum 0).mp ⟨s, hs⟩
  have heq := @chooseSymTabs_eq d (elfTable d) (elfTable d).shnum 0 s hs
  rw [Nat.zero_add] at heq
  refine ⟨h24, fun i hi => ?_, ?_⟩
  · have := hlinks i hi
    rwa [Nat.zero_add] at this
  · intro s' hsym hstr hentsize i hi
    have hs' : s = s' := heq
    rw [hs', safe_ite, safe_ite] at h
    have h := (h.2 (not_or.mpr ⟨hsym, hstr⟩)).2 hentsize
    obtain ⟨symbols, hsymbols, -⟩ := safe_bind.mp h
    have := fits_of_readSymbols ⟨symbols, hsymbols⟩ i hi
    rwa [Nat.zero_add] at this

/-! ### PE files -/

/-- The file has an MZ header, and the check of the offset in it lets the PE header be read. -/
def IsMZ (d : Block) : Prop :=
  e9_binary_is_ape d = .ok false ∧ 64 ≤ d.size ∧ d.holds 0 ELF_MAGIC = false ∧ d.holds 0 [0x4d, 0x5a] = true ∧
    (peOffset d + 24) % 2 ^ 32 ≤ d.size

/-- The PE header is inside the file, as far as it is read. -/
def PeFits (d : Block) : Prop :=
  d.Has (peOffset d) 4 ∧ (d.holds (peOffset d) PE_SIGNATURE = true → d.Has (peOffset d) 26 ∧
    (d.word (peOffset d + 24) 2 = 0x20B → d.Has (peOffset d) 144))

/-- A field of the PE header. -/
theorem has_pe (k m : Nat) : d.Has (peOffset d + k) m ↔ peOffset d + k + m ≤ d.size := by
  unfold Block.Has
  omega

theorem has_pe_start (m : Nat) : d.Has (peOffset d) m ↔ peOffset d + m ≤ d.size := by
  unfold Block.Has
  omega

theorem safe_parse_pe_symbols {bin : E9Binary} (hsize : 64 ≤ d.size) : Safe (parse_pe_symbols d bin) ↔
    d.Has (peOffset d) 26 ∧ (d.word (peOffset d + 24) 2 = 0x20B → d.Has (peOffset d) 144) := by
  unfold parse_pe_symbols
  rw [read_ok (has_of_le (by decide) (by omega)), ok_bind]
  change Safe (Reader.read d (peOffset d + (24 : Nat)) 2 >>= _) ↔ _
  rw [safe_read_bind, safe_ite, has_pe, has_pe_start, has_pe_start]
  change (_ ∧ (_ → _) ∧ (¬_ → Safe (Reader.read d (peOffset d + (136 : Nat)) 4 >>= _))) ↔ _
  rw [safe_read_bind, safe_read_bind, has_pe]
  change (_ ∧ _ ∧ (_ → _ ∧ d.Has (peOffset d + (140 : Nat)) 4 ∧ _)) ↔ _
  rw [has_pe]
  constructor
  · rintro ⟨h26, -, hmagic⟩
    refine ⟨h26, fun heq => ?_⟩
    obtain ⟨-, h144, -⟩ := hmagic fun hne => hne heq
    exact h144
  · rintro ⟨h26, hmagic⟩
    refine ⟨h26, fun _ => safe_ok _, fun heq => ?_⟩
    have h144 := hmagic (Classical.not_not.mp heq)
    exact ⟨by omega, h144, safe_ok _⟩

/-- The detection of a PE file stays inside the file if the header is. If it finds the signature, the parser
of symbols is given a PE file. -/
theorem detect_pe_ok {bin : E9Binary} (hsize : 64 ≤ d.size) (hcheck : (peOffset d + 24) % 2 ^ 32 ≤ d.size)
    (h : PeFits d) : ∃ r bin', detect_pe d bin = .ok (r, bin') ∧
      bin'.format = if d.holds (peOffset d) PE_SIGNATURE = true then .PE else bin.format := by
  obtain ⟨h4, hsignature⟩ := h
  unfold detect_pe
  rw [if_neg (by omega), read_ok (has_of_le (by decide) (by omega)), ok_bind]
  change ∃ r bin', (if (peOffset d + 24) % 2 ^ 32 > d.size then _ else memcmp d (peOffset d) PE_SIGNATURE >>= _) = _ ∧ _
  rw [if_neg (by omega), memcmp_ok h4, ok_bind]
  by_cases hs : d.holds (peOffset d) PE_SIGNATURE = true
  · obtain ⟨h26, h144⟩ := hsignature hs
    rw [has_pe_start] at h26 h144
    rw [if_pos hs, hs, if_neg (by simp)]
    change ∃ r bin', (Reader.read d (peOffset d + (4 : Nat)) 2 >>= _) = _ ∧ _
    rw [read_ok ((has_pe 4 2).mpr (by omega)), ok_bind]
    change ∃ r bin', (Reader.read d (peOffset d + (20 : Nat)) 2 >>= _) = _ ∧ _
    rw [read_ok ((has_pe 20 2).mpr (by omega)), ok_bind]
    split
    · change ∃ r bin', (Reader.read d (peOffset d + (24 : Nat)) 2 >>= _) = _ ∧ _
      rw [read_ok ((has_pe 24 2).mpr (by omega)), ok_bind]
      split
      · rename_i hmagic
        have h144 := h144 hmagic
        change ∃ r bin', (Reader.read d (peOffset d + (40 : Nat)) 4 >>= _) = _ ∧ _
        rw [read_ok ((has_pe 40 4).mpr (by omega)), ok_bind]
        change ∃ r bin', (Reader.read d (peOffset d + (48 : Nat)) 8 >>= _) = _ ∧ _
        rw [read_ok ((has_pe 48 8).mpr (by omega)), ok_bind]
        exact ⟨_, _, rfl, rfl⟩
      · exact ⟨_, _, rfl, rfl⟩
    · exact ⟨_, _, rfl, rfl⟩
  · rw [if_neg hs, Bool.eq_false_iff.mpr hs, if_pos (by rfl)]
    exact ⟨_, _, rfl, rfl⟩

/-- What a detection that gives a result says about the file, and what it found. -/
theorem signature_of_detect_pe {bin bin' : E9Binary} {r : Int} (hsize : 64 ≤ d.size)
    (hcheck : (peOffset d + 24) % 2 ^ 32 ≤ d.size) (h : detect_pe d bin = .ok (r, bin')) :
    d.Has (peOffset d) 4 ∧ (d.holds (peOffset d) PE_SIGNATURE = true → bin'.format = .PE) := by
  unfold detect_pe at h
  rw [if_neg (by omega), read_ok (has_of_le (by decide) (by omega)), ok_bind] at h
  change (if (peOffset d + 24) % 2 ^ 32 > d.size then _ else memcmp d (peOffset d) PE_SIGNATURE >>= _) = _ at h
  rw [if_neg (by omega)] at h
  have hsafe : Safe (memcmp d (peOffset d) PE_SIGNATURE >>= _) := ⟨_, h⟩
  have h4 := (safe_memcmp_bind.mp hsafe).1
  rw [memcmp_ok h4, ok_bind] at h
  refine ⟨h4, fun hs => ?_⟩
  rw [hs, if_neg (by simp)] at h
  obtain ⟨machine, -, h⟩ := of_bind h
  obtain ⟨opt_hdr_size, -, h⟩ := of_bind h
  split at h
  · obtain ⟨magic, -, h⟩ := of_bind h
    split at h
    · obtain ⟨entry_point, -, h⟩ := of_bind h
      obtain ⟨base_address, -, h⟩ := of_bind h
      cases h
      rfl
    · cases h
      rfl
  · cases h
    rfl

/-! ### Mach-O files -/

/-- The file has the magic number of a Mach-O file. -/
def IsMachO (d : Block) : Prop :=
  e9_binary_is_ape d = .ok false ∧ 16 ≤ d.size ∧ d.holds 0 ELF_MAGIC = false ∧ d.holds 0 [0x4d, 0x5a] = false ∧
    (d.word 0 4 = MACHO_MAGIC_64 ∨ d.word 0 4 = MACHO_CIGAM_64)

theorem loadMain_ok (swap : Bool) (cmd offset : Nat) (bin : E9Binary) :
    ∃ bin', loadMain d swap cmd offset bin = .ok bin' ∧ bin'.format = bin.format := by
  unfold loadMain
  split
  · rename_i h
    rw [read_ok (has_of_le (by omega) (by omega)), ok_bind]
    exact ⟨_, rfl, rfl⟩
  · exact ⟨_, rfl, rfl⟩

theorem loadSegment_ok (swap : Bool) (cmd offset : Nat) (bin : E9Binary) :
    ∃ bin', loadSegment d swap cmd offset bin = .ok bin' ∧ bin'.format = bin.format := by
  unfold loadSegment
  split
  · rename_i h
    obtain ⟨text, htext⟩ := @strEquals_has d SEGMENT_TEXT (offset + 8) (has_of_le (by omega) (by
      simp only [SEGMENT_TEXT, List.length_cons, List.length_nil]
      omega))
    rw [htext, ok_bind]
    split
    · rw [read_ok (has_of_le (by omega) (by omega)), ok_bind]
      exact ⟨_, rfl, rfl⟩
    · exact ⟨_, rfl, rfl⟩
  · exact ⟨_, rfl, rfl⟩

/-- The loop over the load commands checks each of them. -/
theorem loadCommands_ok (swap : Bool) (n offset : Nat) (bin : E9Binary) :
    ∃ bin', loadCommands d swap n offset bin = .ok bin' ∧ bin'.format = bin.format := by
  induction n generalizing offset bin with
  | zero => exact ⟨_, rfl, rfl⟩
  | succ n ih =>
      unfold loadCommands
      split
      · rename_i h
        rw [read_ok (has_of_le (by omega) (by omega)), ok_bind, read_ok (has_of_le (by omega) (by omega)), ok_bind]
        obtain ⟨bin₁, h₁, hformat₁⟩ := @loadMain_ok d swap (swapped swap 4 (d.word offset 4)) offset bin
        obtain ⟨bin₂, h₂, hformat₂⟩ := @loadSegment_ok d swap (swapped swap 4 (d.word offset 4)) offset bin₁
        rw [h₁, ok_bind, h₂, ok_bind]
        obtain ⟨bin₃, h₃, hformat₃⟩ := ih ((offset + swapped swap 4 (d.word (offset + 4) 4)) % 2 ^ 64) bin₂
        exact ⟨bin₃, h₃, hformat₃.trans (hformat₂.trans hformat₁)⟩
      · exact ⟨_, rfl, rfl⟩

theorem safe_detect_macho {bin : E9Binary} :
    Safe (detect_macho d bin) ↔ 20 ≤ d.size := by
  unfold detect_macho
  simp only
  rw [safe_read_bind, safe_read_bind, safe_read_bind]
  constructor
  · rintro ⟨-, -, h, -⟩
    have := h.2
    omega
  · intro h
    refine ⟨has_of_le (by decide) (by omega), has_of_le (by decide) (by omega), has_of_le (by decide) (by omega), ?_⟩
    refine Safe.bind ?_ fun bin' _ => safe_ok _
    obtain ⟨bin', hbin, -⟩ := loadCommands_ok (d := d) _ _ _ _
    exact ⟨bin', hbin⟩

theorem detect_macho_format {bin bin' : E9Binary} {r : Int} (h : detect_macho d bin = .ok (r, bin')) :
    bin'.format = .MACHO := by
  unfold detect_macho at h
  simp only at h
  obtain ⟨magic, -, h⟩ := of_bind h
  obtain ⟨cputype, -, h⟩ := of_bind h
  obtain ⟨ncmds, -, h⟩ := of_bind h
  obtain ⟨bin₁, h₁, h⟩ := of_bind h
  obtain ⟨bin₂, h₂, hformat⟩ := loadCommands_ok (d := d) _ _ _ _
  rw [Except.ok.inj (h₂.symm.trans h₁)] at hformat
  cases h
  exact hformat

/-! ### Detection and symbols -/

theorem safe_symbols_other {alloc : AnalysisAllocator} {bin : E9Binary} (helf : bin.format ≠ .ELF)
    (hpe : bin.format ≠ .PE) : Safe (e9_symbols_parse d alloc bin) := by
  unfold e9_symbols_parse
  split
  · rename_i h
    exact absurd h helf
  · rename_i h
    exact absurd h hpe
  · exact safe_ok _

theorem safe_symbols_pe {alloc : AnalysisAllocator} {bin : E9Binary} (h : bin.format = .PE) :
    Safe (e9_symbols_parse d alloc bin) ↔ Safe (parse_pe_symbols d bin) := by
  unfold e9_symbols_parse
  rw [h, safe_bind]
  exact ⟨fun ⟨r, hr, _⟩ => ⟨r, hr⟩, fun ⟨r, hr⟩ => ⟨r, hr, safe_ok _⟩⟩

theorem safe_session {alloc : AnalysisAllocator} : Safe (analysisSession d alloc) ↔
    ∃ r bin, e9_binary_detect d alloc E9Binary.zero = .ok (r, bin) ∧ Safe (e9_symbols_parse d alloc bin) := by
  unfold analysisSession
  rw [safe_bind]
  exact ⟨fun ⟨⟨r, bin⟩, h, hs⟩ => ⟨r, bin, h, hs⟩, fun ⟨r, bin, h, hs⟩ => ⟨(r, bin), h, hs⟩⟩

section
variable {alloc : AnalysisAllocator} {bin : E9Binary}

theorem detect_of_ape (h : e9_binary_is_ape d = .ok true) : e9_binary_detect d alloc bin = detect_ape d bin := by
  obtain ⟨b, hb, hsize⟩ := is_ape_ok d
  have hsize := hsize (Except.ok.inj (hb.symm.trans h))
  unfold e9_binary_detect
  rw [if_neg (by omega), h, ok_bind, if_pos rfl]

/-- The detection of a file that is not an APE file. -/
theorem detect_of_other (h : e9_binary_is_ape d = .ok false) (hsize : 16 ≤ d.size) : e9_binary_detect d alloc bin =
    if d.holds 0 ELF_MAGIC then detect_elf d alloc.sections bin
    else if d.holds 0 [0x4d, 0x5a] then detect_pe d bin
    else if d.word 0 4 = MACHO_MAGIC_64 ∨ d.word 0 4 = MACHO_CIGAM_64 then detect_macho d bin
    else detectRaw d bin := by
  unfold e9_binary_detect
  rw [if_neg (by omega), h, ok_bind, if_neg (by simp),
    memcmp_ok (has_of_le (by decide) (by rw [ELF_MAGIC_length]; omega)), ok_bind]
  congr 1
  rw [memcmp_ok (has_of_le (by decide) (by simp only [List.length_cons, List.length_nil]; omega)), ok_bind]
  congr 1
  rw [read_ok (has_of_le (by decide) (by omega)), ok_bind]

/-- What the ELF header says. -/
def elfHeader (d : Block) (bin : E9Binary) : E9Binary :=
  { bin with
    format := .ELF, arch := archOf (d.word 18 2) ELF_MACHINE_X86_64 ELF_MACHINE_AARCH64
    entry_point := d.word 24 8, is_pie := d.word 16 2 = 3 }

theorem detect_elf_eq {sections : Bool} (hsize : 64 ≤ d.size) : detect_elf d sections bin =
    if d.word 4 1 ≠ 2 then .ok (-1, bin)
    else detectSectionTable d (elfTable d) sections (elfHeader d bin) >>= fun bin => .ok (0, bin) := by
  unfold detect_elf
  rw [if_neg (by omega), read_ok (has_of_le (by decide) (by omega)), ok_bind,
    read_ok (has_of_le (by decide) (by omega)), ok_bind, read_ok (has_of_le (by decide) (by omega)), ok_bind,
    read_ok (has_of_le (by decide) (by omega)), ok_bind, readSectionTable_ok hsize, ok_bind]
  rfl

theorem detectRaw_ok (hsize : 16 ≤ d.size) : ∃ r bin', detectRaw d bin = .ok (r, bin') ∧ bin'.format = .RAW := by
  unfold detectRaw
  simp only
  rw [memcmp_ok (has_of_le (by decide) (by simp only [List.length_cons, List.length_nil]; omega)), ok_bind]
  split
  · exact ⟨_, _, rfl, rfl⟩
  · rw [read_ok (has_of_le (by decide) (by omega)), ok_bind]
    split
    · exact ⟨_, _, rfl, rfl⟩
    · exact ⟨_, _, rfl, rfl⟩

end

/-- What the detection and the parser of symbols read is inside the file. -/
structure AnalysisFits (d : Block) : Prop where
  ape : e9_binary_is_ape d = .ok true → ApeElfFits d ∧ ApePeFits d
  elf : IsElf d → SectionsFit d (elfTable d) ∧ SymbolsFit d (elfTable d)
  pe : IsMZ d → PeFits d
  macho : IsMachO d → 20 ≤ d.size

theorem safe_session_elf {alloc : AnalysisAllocator} (hape : e9_binary_is_ape d = .ok false) (hsize : 16 ≤ d.size)
    (hmagic : d.holds 0 ELF_MAGIC = true)
    (h : IsElf d → SectionsFit d (elfTable d) ∧ SymbolsFit d (elfTable d)) : Safe (analysisSession d alloc) := by
  rw [safe_session, detect_of_other hape hsize, if_pos hmagic]
  by_cases h64 : 64 ≤ d.size
  · rw [detect_elf_eq h64]
    split
    · exact ⟨_, _, rfl, safe_symbols_other nofun nofun⟩
    · rename_i hclass
      obtain ⟨hsections, hsymbols⟩ := h ⟨hape, h64, hmagic, Classical.not_not.mp hclass⟩
      obtain ⟨bin, hbin⟩ := @safe_detectSectionTable d (elfTable d) alloc.sections (elfHeader d E9Binary.zero) hsections
      refine ⟨0, bin, by rw [hbin, ok_bind], ?_⟩
      have hformat : bin.format = .ELF := detectSectionTable_format hbin
      unfold e9_symbols_parse
      rw [hformat]
      exact safe_parse_elf_symbols h64 hsymbols
  · unfold detect_elf
    rw [if_pos (by omega)]
    exact ⟨_, _, rfl, safe_symbols_other nofun nofun⟩

theorem fits_of_session_elf (h : Safe (analysisSession d allocatesAll)) (helf : IsElf d) :
    SectionsFit d (elfTable d) ∧ SymbolsFit d (elfTable d) := by
  obtain ⟨hape, h64, hmagic, hclass⟩ := helf
  obtain ⟨r, bin, hdetect, hsymbols⟩ := safe_session.mp h
  rw [detect_of_other hape (by omega), if_pos hmagic, detect_elf_eq h64, if_neg (by simp [hclass])] at hdetect
  obtain ⟨bin', hbin, hdetect⟩ := of_bind hdetect
  cases hdetect
  have hformat : bin.format = .ELF := detectSectionTable_format hbin
  unfold e9_symbols_parse at hsymbols
  rw [hformat] at hsymbols
  exact ⟨fits_of_detectSectionTable ⟨bin, hbin⟩, fits_of_parse_elf_symbols h64 hsymbols⟩

theorem safe_session_pe {alloc : AnalysisAllocator} (hape : e9_binary_is_ape d = .ok false) (hsize : 16 ≤ d.size)
    (helf : d.holds 0 ELF_MAGIC = false) (hmz : d.holds 0 [0x4d, 0x5a] = true) (h : IsMZ d → PeFits d) :
    Safe (analysisSession d alloc) := by
  rw [safe_session, detect_of_other hape hsize, if_neg (by simp [helf]), if_pos hmz]
  by_cases h64 : 64 ≤ d.size
  · by_cases hcheck : (peOffset d + 24) % 2 ^ 32 ≤ d.size
    · have hfits := h ⟨hape, h64, helf, hmz, hcheck⟩
      obtain ⟨r, bin, hdetect, hformat⟩ := @detect_pe_ok d E9Binary.zero h64 hcheck hfits
      refine ⟨r, bin, hdetect, ?_⟩
      by_cases hs : d.holds (peOffset d) PE_SIGNATURE = true
      · rw [if_pos hs] at hformat
        exact (safe_symbols_pe hformat).mpr ((safe_parse_pe_symbols h64).mpr (hfits.2 hs))
      · rw [if_neg hs] at hformat
        exact safe_symbols_other (by rw [hformat]; nofun) (by rw [hformat]; nofun)
    · refine ⟨-1, E9Binary.zero, ?_, safe_symbols_other nofun nofun⟩
      unfold detect_pe
      rw [if_neg (by omega), read_ok (has_of_le (by decide) (by omega)), ok_bind]
      exact if_pos (show (peOffset d + 24) % 2 ^ 32 > d.size by omega)
  · refine ⟨-1, E9Binary.zero, ?_, safe_symbols_other nofun nofun⟩
    unfold detect_pe
    rw [if_pos (by omega)]

theorem fits_of_session_pe (h : Safe (analysisSession d allocatesAll)) (hpe : IsMZ d) : PeFits d := by
  obtain ⟨hape, h64, helf, hmz, hcheck⟩ := hpe
  obtain ⟨r, bin, hdetect, hsymbols⟩ := safe_session.mp h
  rw [detect_of_other hape (by omega), if_neg (by simp [helf]), if_pos hmz] at hdetect
  obtain ⟨h4, hformat⟩ := signature_of_detect_pe h64 hcheck hdetect
  exact ⟨h4, fun hs => (safe_parse_pe_symbols h64).mp ((safe_symbols_pe (hformat hs)).mp hsymbols)⟩

theorem safe_session_rest {alloc : AnalysisAllocator} (hape : e9_binary_is_ape d = .ok false) (hsize : 16 ≤ d.size)
    (helf : d.holds 0 ELF_MAGIC = false) (hmz : d.holds 0 [0x4d, 0x5a] = false) (h : IsMachO d → 20 ≤ d.size) :
    Safe (analysisSession d alloc) := by
  rw [safe_session, detect_of_other hape hsize, if_neg (by simp [helf]), if_neg (by simp [hmz])]
  split
  · rename_i hmagic
    obtain ⟨⟨r, bin⟩, hdetect⟩ := (@safe_detect_macho d E9Binary.zero).mpr (h ⟨hape, hsize, helf, hmz, hmagic⟩)
    have hformat := detect_macho_format hdetect
    exact ⟨r, bin, hdetect, safe_symbols_other (by rw [hformat]; nofun) (by rw [hformat]; nofun)⟩
  · obtain ⟨r, bin, hdetect, hformat⟩ := @detectRaw_ok d E9Binary.zero hsize
    exact ⟨r, bin, hdetect, safe_symbols_other (by rw [hformat]; nofun) (by rw [hformat]; nofun)⟩

/-- The detection of the format and the parser of symbols read nothing outside the file and come to an end,
whatever can be allocated, just if what they read without a check is inside the file. -/
theorem analysis_reads_inside_iff (d : Block) :
    (∀ alloc, Safe (analysisSession d alloc)) ↔ AnalysisFits d := by
  constructor
  · intro h
    have h := h allocatesAll
    refine ⟨fun hape => ?_, fits_of_session_elf h, fits_of_session_pe h, fun hmacho => ?_⟩
    · obtain ⟨b, hb, hsize⟩ := is_ape_ok d
      obtain ⟨r, bin, hdetect, -⟩ := safe_session.mp h
      rw [detect_of_ape hape] at hdetect
      exact (safe_detect_ape (hsize (Except.ok.inj (hb.symm.trans hape)))).mp ⟨_, hdetect⟩
    · obtain ⟨hape, hsize, helf, hmz, hmagic⟩ := hmacho
      obtain ⟨r, bin, hdetect, -⟩ := safe_session.mp h
      rw [detect_of_other hape hsize, if_neg (by simp [helf]), if_neg (by simp [hmz]), if_pos hmagic] at hdetect
      exact safe_detect_macho.mp ⟨_, hdetect⟩
  · intro h alloc
    by_cases hsize : 16 ≤ d.size
    · obtain ⟨b, hb, h64⟩ := is_ape_ok d
      cases b with
      | true =>
          have h64 := h64 rfl
          obtain ⟨⟨r, bin⟩, hdetect⟩ := (@safe_detect_ape d E9Binary.zero h64).mpr (h.ape hb)
          have hformat := detect_ape_format h64 hdetect
          rw [safe_session, detect_of_ape hb]
          exact ⟨r, bin, hdetect, safe_symbols_other (by rw [hformat]; nofun) (by rw [hformat]; nofun)⟩
      | false =>
          cases helf : d.holds 0 ELF_MAGIC with
          | true => exact safe_session_elf hb hsize helf h.elf
          | false =>
              cases hmz : d.holds 0 [0x4d, 0x5a] with
              | true => exact safe_session_pe hb hsize helf hmz h.pe
              | false => exact safe_session_rest hb hsize helf hmz h.macho
    · rw [safe_session]
      refine ⟨-1, E9Binary.zero, ?_, safe_symbols_other nofun nofun⟩
      unfold e9_binary_detect
      rw [if_pos (by omega)]

/-- A file of sixteen bytes that starts as a Mach-O file. -/
def shortMachO : Block := ⟨[0xcf, 0xfa, 0xed, 0xfe, 7, 0, 0, 1, 3, 0, 0, 0, 2, 0, 0, 0], by decide⟩

/-- The number of load commands is read behind its end. -/
theorem shortMachO_unsafe : ¬∀ d : Block, 16 ≤ d.size → ∀ alloc, Safe (analysisSession d alloc) := by
  intro h
  obtain ⟨a, ha⟩ := h shortMachO (by decide) allocatesAll
  have herror : analysisSession shortMachO allocatesAll = .error .outOfBounds := by decide
  rw [herror] at ha
  cases ha

end E9Patch
