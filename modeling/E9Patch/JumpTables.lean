import E9Patch.CFRTheorems

/-!
The jump tables of the target analysis. The scan of the code collects where `lea` instructions go, and the
words of the readable segments from there on are taken for a table, up to the first that does not lead to
code. A table is told by its address, but what the scan looks at first is the offset that is as far from the
instruction: this is the offset of the table only where the table is mapped with the same distance of
addresses and offsets as the code.
-/

namespace E9Patch
open Bytes

set_option maxRecDepth 20000

def PF_R : Nat := 4

/-- The table that the round at `j` finds: where a `lea` goes. -/
def leaTable (B : Binary) (phdr : Phdr) (ub j : Nat) : Option Int :=
  if B.original j = 0x48 ∨ B.original j = 0x4C then
    if j + 7 > ub ∨ B.original (j + 1) ≠ 0x8d then none
    else
      let modRM := B.original (j + 2)
      let mod := (modRM &&& 0xc0) >>> 6
      let rm := modRM &&& 0x7
      if mod ≠ 0x00 ∧ rm ≠ 0x05 then none
      else
        let target := j + 7 + rel32At B (j + 3)
        if target ≥ 0 ∧ target % 4 = 0 then some (phdr.p_vaddr + (target - phdr.p_offset)) else none
  else none

/-- The addresses of the tables. -/
def tables (B : Binary) (phdrs : List Phdr) (cet : Bool) : List Int :=
  (phdrs.filter isCode).flatMap fun phdr =>
    let ub := segmentEnd B phdr
    (scanPositions B phdrs cet ub (ub - phdr.p_offset) phdr.p_offset).filterMap (leaTable B phdr ub)

/-- The labels of a table: the words up to the first that does not lead to code. -/
def tableRun (B : Binary) (phdrs : List Phdr) (table : Int) : List Nat → List Int
  | [] => []
  | q :: qs =>
    let target := addrToOffset phdrs (table + rel32At B q) true
    if target < EHDR_SIZE ∨ target ≥ B.size then [] else target :: tableRun B phdrs table qs

/-- The words of a segment that tables may start at. -/
def tableRuns (B : Binary) (phdrs : List Phdr) (tables : List Int) (phdr : Phdr) : List Nat → List Int
  | [] => []
  | p :: ps =>
    let table := phdr.p_vaddr + ((p : Int) - phdr.p_offset)
    (if table ∈ tables then tableRun B phdrs table (p :: ps) else []) ++ tableRuns B phdrs tables phdr ps

def isReadable (phdr : Phdr) : Bool := phdr.p_type = PT_LOAD ∧ phdr.p_flags &&& PF_R ≠ 0

/-- The labels of all tables. -/
def jumpTables (B : Binary) (phdrs : List Phdr) (cet : Bool) : List Int :=
  (phdrs.filter isReadable).flatMap fun phdr =>
    tableRuns B phdrs (tables B phdrs cet) phdr (getBounds 4 phdr.p_offset (segmentEnd B phdr))

/-- The target analysis with the jump tables; `other` are the offsets of what is found otherwise. -/
def findTargetsAndTables (B : Binary) (phdrs : List Phdr) (features : Option Nat) (other : List Int) :
    Option (Nat → Bool) :=
  let cet := match features with
    | none => true
    | some f => f &&& GNU_PROPERTY_X86_FEATURE_1_IBT = 0 ∨ f &&& GNU_PROPERTY_X86_FEATURE_1_SHSTK = 0
  findTargets B phdrs features (other ++ jumpTables B phdrs cet)

/-! ### Tables -/

/-- A `lea` relative to `rip` stands at an offset of the segment. -/
def IsLea (B : Binary) (s : Phdr) (p : Nat) : Prop :=
  s.p_offset ≤ p ∧ p + 7 ≤ segmentEnd B s ∧ (B.original p = 0x48 ∨ B.original p = 0x4c) ∧
    B.original (p + 1) = 0x8d ∧ B.original (p + 2) &&& 0xc7 = 5

instance (B : Binary) (s : Phdr) (p : Nat) : Decidable (IsLea B s p) := by
  unfold IsLea
  infer_instance

/-- Where the `lea` goes. -/
def leaAddress (B : Binary) (s : Phdr) (p : Nat) : Int := s.address p + 7 + rel32At B (p + 3)

/-- Entry `i` of the table at offset `t` of the segment `S` leads to offset `q`. -/
def IsEntry (B : Binary) (phdrs : List Phdr) (S : Phdr) (t i q : Nat) : Prop :=
  S.Contains B (t + 4 * i + 3) ∧
    ∃ e ∈ phdrs, isCode e = true ∧ e.Contains B q ∧ e.address q = S.address t + rel32At B (t + 4 * i)

instance (B : Binary) (phdrs : List Phdr) (S : Phdr) (t i q : Nat) : Decidable (IsEntry B phdrs S t i q) := by
  unfold IsEntry
  infer_instance

/-- The offset that is as far from the `lea` as the table is not before the file, and the offsets of the
`lea` and of the table are aligned as their addresses are. -/
structure Recognised (B : Binary) (s S : Phdr) (p : Nat) : Prop where
  front : 0 ≤ (p : Int) + 7 + rel32At B (p + 3)
  code : (s.p_vaddr - s.p_offset) % 4 = 0
  table : (S.p_vaddr - S.p_offset) % 4 = 0

/-- The part of an executable header that is in the file holds the address. -/
def Phdr.holds (addr : Int) (phdr : Phdr) : Bool :=
  (phdr.p_type = PT_LOAD ∨ phdr.p_type = PT_GNU_RELRO) ∧ phdr.p_flags &&& PF_X ≠ 0 ∧
    phdr.p_vaddr ≤ addr ∧ addr < phdr.p_vaddr + phdr.p_filesz

/-- The address is not zero, its offset is not in the ELF header, and the first header that holds the address
maps it to the offset. -/
structure Followed (phdrs : List Phdr) (addr : Int) (q : Nat) : Prop where
  nonzero : addr ≠ 0
  behind : 64 ≤ q
  first : ∀ e, phdrs.find? (Phdr.holds addr) = some e → e.p_offset + (addr - e.p_vaddr) = q

section
variable {B : Binary} {phdrs : List Phdr}

theorem leaTable_eq {s : Phdr} {p : Nat} (h : IsLea B s p) (hfront : 0 ≤ (p : Int) + 7 + rel32At B (p + 3))
    (hcode : (s.p_vaddr - s.p_offset) % 4 = 0) (haligned : leaAddress B s p % 4 = 0) :
    leaTable B s (segmentEnd B s) p = some (leaAddress B s p) := by
  obtain ⟨-, hend, hrex, hop, hmodRM⟩ := h
  have hmod : ∀ b : UInt8, b &&& 0xc7 = 5 → (b &&& 0xc0) >>> 6 = 0 := by decide
  have haddress : s.p_vaddr + (p + 7 + rel32At B (p + 3) - s.p_offset) = leaAddress B s p := by
    unfold leaAddress Phdr.address
    omega
  have htarget : ((p : Int) + 7 + rel32At B (p + 3)) % 4 = 0 := by omega
  unfold leaTable
  simp only
  rw [if_pos hrex, if_neg (by rw [hop]; simpa using hend), hmod _ hmodRM, if_neg (fun h => h.1 rfl),
    if_pos ⟨hfront, htarget⟩, haddress]

/-- A table that is recognised is on the list. -/
theorem leaAddress_mem_tables (cet : Bool) {s S : Phdr} {p : Nat} (hs : s ∈ phdrs) (hcode : isCode s = true)
    (h : IsLea B s p) (haligned : leaAddress B s p % 4 = 0) (hfound : Recognised B s S p) :
    leaAddress B s p ∈ tables B phdrs cet := by
  have hskip : isJcc32 (B.original p) = false := by
    rcases h.2.2.1 with hrex | hrex <;> rw [hrex] <;> decide
  have hend := h.2.1
  have hstart := h.1
  have hposition := mem_scanPositions B phdrs cet (segmentEnd B s) (by omega) hskip hstart
    (by omega : segmentEnd B s ≤ segmentEnd B s - s.p_offset + s.p_offset)
  have htable := leaTable_eq h hfound.front hfound.code haligned
  refine List.mem_flatMap.mpr ⟨s, List.mem_filter.mpr ⟨hs, hcode⟩, ?_⟩
  exact List.mem_filterMap.mpr ⟨p, hposition, htable⟩

theorem addrToOffset_code {addr : Int} (h : addr ≠ 0) : addrToOffset phdrs addr true =
    match phdrs.find? (Phdr.holds addr) with
    | none => INTPTR_MIN
    | some phdr => phdr.p_offset + (addr - phdr.p_vaddr) := by
  have hholds : Phdr.holds addr = fun phdr : Phdr =>
      decide ((phdr.p_type = PT_LOAD ∨ phdr.p_type = PT_GNU_RELRO) ∧
        ¬(true = true ∧ phdr.p_flags &&& PF_X = 0) ∧ addr ≥ phdr.p_vaddr ∧ addr < phdr.p_vaddr + phdr.p_filesz) := by
    funext phdr
    apply decide_eq_decide.mpr
    simp only [true_and, ge_iff_le, ne_eq]
  rw [hholds]
  exact if_neg h

theorem addrToOffset_eq {addr : Int} {q : Nat} {e : Phdr} (he : e ∈ phdrs) (hcode : isCode e = true)
    (hcontains : e.Contains B q) (haddress : e.address q = addr) (h : Followed phdrs addr q) :
    addrToOffset phdrs addr true = q := by
  have hholds : e.holds addr = true := by
    unfold isCode at hcode
    unfold Phdr.Contains at hcontains
    unfold Phdr.address at haddress
    have hcode := of_decide_eq_true hcode
    exact decide_eq_true ⟨Or.inl hcode.1, hcode.2, by omega, by omega⟩
  rw [addrToOffset_code h.nonzero]
  cases hfind : phdrs.find? (Phdr.holds addr) with
  | none => exact absurd hholds (List.find?_eq_none.mp hfind e he)
  | some e' => exact h.first e' hfind

/-- The labels up to one that leads to code are found if all before it do. -/
theorem mem_tableRun {table : Int} {k m t : Nat} {q : Nat → Nat} (hk : k < m)
    (hrun : ∀ i ≤ k, addrToOffset phdrs (table + rel32At B (t + 4 * i)) true = q i)
    (hbounds : ∀ i ≤ k, 64 ≤ q i ∧ q i < B.size) :
    (q k : Int) ∈ tableRun B phdrs table (List.range' t m 4) := by
  induction k generalizing m t q with
  | zero =>
      obtain ⟨m, rfl⟩ := Nat.exists_eq_add_of_lt hk
      have hfirst := hbounds 0 (Nat.le_refl 0)
      have hlabel := hrun 0 (Nat.le_refl 0)
      rw [Nat.mul_zero, Nat.add_zero] at hlabel
      rw [Nat.zero_add, List.range'_succ, tableRun]
      rw [hlabel, if_neg (by unfold EHDR_SIZE; omega)]
      exact List.mem_cons_self
  | succ k ih =>
      obtain ⟨m, rfl⟩ : ∃ n, m = n + 1 := ⟨m - 1, by omega⟩
      have hfirst := hbounds 0 (Nat.zero_le _)
      have hlabel := hrun 0 (Nat.zero_le _)
      rw [Nat.mul_zero, Nat.add_zero] at hlabel
      rw [List.range'_succ, tableRun]
      rw [hlabel, if_neg (by unfold EHDR_SIZE; omega)]
      refine List.mem_cons_of_mem _ (ih (q := fun i => q (i + 1)) (by omega) ?_ ?_)
      · intro i hi
        have hnext := hrun (i + 1) (by omega)
        rw [Nat.mul_add, Nat.mul_one, Nat.add_comm (4 * i) 4, ← Nat.add_assoc] at hnext
        exact hnext
      · intro i hi
        exact hbounds (i + 1) (by omega)

/-- Every word that a table starts at is come by. -/
theorem mem_tableRuns {tables : List Int} {S : Phdr} {t : Nat} {pre rest : List Nat} {offset : Int}
    (htable : S.address t ∈ tables) (h : offset ∈ tableRun B phdrs (S.address t) (t :: rest)) :
    offset ∈ tableRuns B phdrs tables S (pre ++ t :: rest) := by
  induction pre with
  | nil =>
      refine List.mem_append_left _ ?_
      show offset ∈ if S.address t ∈ tables then tableRun B phdrs (S.address t) (t :: rest) else []
      rw [if_pos htable]
      exact h
  | cons p pre ih => exact List.mem_append_right _ ih

end

/-- The words from an aligned one on are the last of the words. -/
theorem getBounds_split {lb t n : Nat} (ub : Nat) (hlb : lb ≤ t) (haligned : t % 4 = 0) (hn : 0 < n) (hub : t + 4 * n ≤ ub) :
    ∃ pre m, n ≤ m + 1 ∧ getBounds 4 lb ub = pre ++ t :: List.range' (t + 4) m 4 := by
  obtain ⟨a, ha⟩ : ∃ a, t = (lb + 4 - 1) / 4 * 4 + 4 * a := ⟨(t - (lb + 4 - 1) / 4 * 4) / 4, by omega⟩
  obtain ⟨m, hm⟩ : ∃ m, (ub / 4 * 4 - (lb + 4 - 1) / 4 * 4) / 4 = a + (m + 1) :=
    ⟨(ub / 4 * 4 - t) / 4 - 1, by omega⟩
  refine ⟨List.range' ((lb + 4 - 1) / 4 * 4) a 4, m, by omega, ?_⟩
  unfold getBounds
  simp only
  rw [hm, ← List.range'_append, ← ha, List.range'_succ]

/-- An image with `lea` at address 0x400040 and a table of labels at another address. -/
def tableImage (table : Int) (labels : List Int) : Binary :=
  codeImage ([0x48, 0x8d, 0x05] ++ le32 (table - 0x400047) ++ List.replicate 9 0 ++
    labels.flatMap fun label => le32 (label - table))

def tableSegment (table : Int) (size : Nat) : Phdr :=
  { p_type := PT_LOAD, p_flags := PF_R, p_offset := 80, p_vaddr := table, p_filesz := size, p_memsz := size }

def tablePhdrs (table : Int) (size : Nat) : List Phdr := [codeSegment 64 0x400040, tableSegment table size]

/-- Labels for the offsets 74 and 72. -/
def twoLabels : Binary := tableImage 0x500050 [0x40004a, 0x400048]

/-- An address of the code is followed. -/
theorem twoLabels_followed {label : Int} {q : Nat} (h : label = 0x40004a ∧ q = 74 ∨ label = 0x400048 ∧ q = 72) :
    Followed (tablePhdrs 0x500050 8) label q := by
  rcases h with ⟨rfl, rfl⟩ | ⟨rfl, rfl⟩
  · refine ⟨by decide, by decide, fun e he => ?_⟩
    rw [show (tablePhdrs 0x500050 8).find? (Phdr.holds 0x40004a) = some (codeSegment 64 0x400040) by decide] at he
    rw [← Option.some.inj he]
    decide
  · refine ⟨by decide, by decide, fun e he => ?_⟩
    rw [show (tablePhdrs 0x500050 8).find? (Phdr.holds 0x400048) = some (codeSegment 64 0x400040) by decide] at he
    rw [← Option.some.inj he]
    decide

theorem twoLabels_entries : ∀ i ≤ 1, IsEntry twoLabels (tablePhdrs 0x500050 8) (tableSegment 0x500050 8) 80 i
      (if i = 0 then 74 else 72) ∧
    Followed (tablePhdrs 0x500050 8) ((tableSegment 0x500050 8).address 80 + rel32At twoLabels (80 + 4 * i))
      (if i = 0 then 74 else 72) := by
  intro i hi
  obtain rfl | rfl : i = 0 ∨ i = 1 := by omega
  · exact ⟨by decide, twoLabels_followed (Or.inl (by decide))⟩
  · exact ⟨by decide, twoLabels_followed (Or.inr (by decide))⟩

/-- A jump table whose first label leads to an offset that is not marked. -/
def TableMissed (B : Binary) (phdrs : List Phdr) (s S : Phdr) (p t q : Nat) : Prop :=
  (s ∈ phdrs ∧ isCode s = true ∧ IsLea B s p ∧ S ∈ phdrs ∧ isReadable S = true ∧ S.Contains B t ∧ 64 ≤ q) ∧
    (S.address t = leaAddress B s p ∧ S.address t % 4 = 0 ∧ IsEntry B phdrs S t 0 q) ∧
      isTarget (targetAnalysis B (findTargetsAndTables B phdrs none [])) q = false

instance (B : Binary) (phdrs : List Phdr) (s S : Phdr) (p t q : Nat) :
    Decidable (TableMissed B phdrs s S p t q) := by
  unfold TableMissed
  infer_instance

end E9Patch
