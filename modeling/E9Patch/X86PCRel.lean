import E9Patch.X86Encoding
import E9Patch.BinaryModel

/-!
Which pc-relative instructions the partial decoder finds. `relocateInstr` and
`getInstrPCRelativeIndex` look at the same opcodes; both pass over `loop` and its variants, `xbegin`, and
the EVEX maps past the third, so that these are copied as they are.
-/

namespace E9Patch
open Bytes X86

set_option maxRecDepth 20000

/-! ### Prefixes and opcodes -/

theorem mem_legacyPrefixes (b : UInt8) : b ∈ legacyPrefixes ↔ isLegacy b = true := by
  simp only [legacyPrefixes, isLegacy, List.mem_cons, List.not_mem_nil, or_false, decide_eq_true_eq]
  tauto

theorem mem_rexPrefixes : ∀ b, b ∈ rexPrefixes ↔ isREX b = true := by decide

/-- Prefixes are skipped up to the first byte that is none. -/
theorem decodePrefixFrom_append {pres rest : List UInt8} (p : PrefixInfo)
    (hpres : ∀ b ∈ pres, isLegacy b ∨ isREX b) (hrest : ∀ b ∈ rest.head?, ¬isLegacy b ∧ ¬isREX b) :
    (decodePrefixFrom (pres ++ rest) p).i = p.i + pres.length := by
  induction pres generalizing p with
  | nil =>
      cases rest with
      | nil => rfl
      | cons c rest =>
          obtain ⟨h1, h2⟩ := hrest c rfl
          rw [List.nil_append, decodePrefixFrom, if_neg (by rwa [mem_legacyPrefixes]),
            if_neg (by rwa [mem_rexPrefixes])]
          rfl
  | cons b pres ih =>
      have hp := fun q => ih q fun c hc => hpres c (by simp [hc])
      rw [List.cons_append, decodePrefixFrom]
      by_cases hb : b ∈ legacyPrefixes
      · rw [if_pos hb, hp]
        show p.i + 1 + pres.length = p.i + (pres.length + 1)
        omega
      · have hrex : b ∈ rexPrefixes := by
          rw [mem_legacyPrefixes] at hb
          rw [mem_rexPrefixes]
          exact (hpres b (by simp)).resolve_left hb
        rw [if_neg hb, if_pos hrex, hp]
        show p.i + 1 + pres.length = p.i + (pres.length + 1)
        omega

theorem decodePrefix_append {pres rest : List UInt8} (hpres : ∀ b ∈ pres, isLegacy b ∨ isREX b)
    (hrest : ∀ b ∈ rest.head?, ¬isLegacy b ∧ ¬isREX b) :
    (decodePrefix (pres ++ rest)).i = pres.length := by
  rw [decodePrefix, decodePrefixFrom_append _ hpres hrest, Nat.zero_add]

theorem byteAt_length (pres : List UInt8) (b : UInt8) (rest : List UInt8) :
    byteAt (pres ++ b :: rest) pres.length = b := byteAt_append_right pres (b :: rest) 0

/-- An opcode that is no VEX or EVEX prefix. -/
theorem decodeOpcode_classic {pres rest : List UInt8} {b : UInt8} (h1 : b ≠ 0x62) (h2 : b ≠ 0xc4)
    (h3 : b ≠ 0xc5) :
    decodeOpcode (pres ++ b :: rest) pres.length = decodeClassic (pres ++ b :: rest) pres.length := by
  unfold decodeOpcode
  simp only [byteAt_length]
  rw [if_neg (by simp), if_neg h1, if_neg (by simp [h2]), if_neg (by simp [h3])]

theorem decodeOpcode_one {pres rest : List UInt8} {b : UInt8} (h1 : b ≠ 0x62) (h2 : b ≠ 0xc4)
    (h3 : b ≠ 0xc5) (h4 : b ≠ 0x0f) :
    decodeOpcode (pres ++ b :: rest) pres.length = some ⟨pres.length + 1, .SINGLE_BYTE, b⟩ := by
  rw [decodeOpcode_classic h1 h2 h3, decodeClassic]
  simp only [byteAt_length]
  rw [if_neg h4]

theorem decodeOpcode_two {pres rest : List UInt8} {b : UInt8} (h1 : b ≠ 0x38) (h2 : b ≠ 0x3a) :
    decodeOpcode (pres ++ 0x0f :: b :: rest) pres.length =
      some ⟨pres.length + 2, .TWO_BYTES_0F, b⟩ := by
  rw [decodeOpcode_classic (by decide) (by decide) (by decide), decodeClassic]
  have hb : byteAt (pres ++ 0x0f :: b :: rest) (pres.length + 1) = b :=
    byteAt_append_right pres (0x0f :: b :: rest) 1
  simp only [byteAt_length, hb]
  rw [if_pos trivial, if_neg (by simp), if_neg h1, if_neg h2]

theorem decodeOpcode_three {pres rest : List UInt8} {e b : UInt8} {encoding : Encoding}
    (h : e = 0x38 ∧ encoding = .THREE_BYTES_0F38 ∨ e = 0x3a ∧ encoding = .THREE_BYTES_0F3A) :
    decodeOpcode (pres ++ 0x0f :: e :: b :: rest) pres.length = some ⟨pres.length + 3, encoding, b⟩ := by
  rw [decodeOpcode_classic (by decide) (by decide) (by decide), decodeClassic]
  have he : byteAt (pres ++ 0x0f :: e :: b :: rest) (pres.length + 1) = e :=
    byteAt_append_right pres (0x0f :: e :: b :: rest) 1
  have hb : byteAt (pres ++ 0x0f :: e :: b :: rest) (pres.length + 1 + 1) = b :=
    byteAt_append_right pres (0x0f :: e :: b :: rest) 2
  simp only [byteAt_length, he, hb]
  rw [if_pos trivial, if_neg (by simp)]
  have hsize : ¬pres.length + 1 + 1 ≥ (pres ++ 0x0f :: e :: b :: rest).length := by
    simp only [List.length_append, List.length_cons]
    omega
  rcases h with ⟨rfl, rfl⟩ | ⟨rfl, rfl⟩
  · rw [if_pos rfl, if_neg hsize]
  · rw [if_neg (by decide), if_pos rfl, if_neg hsize]

theorem override_spec {b : UInt8} (h : isOverride b = true) : isLegacy b = true ∧ b &&& 0xf0 ≠ 0x40 := by
  simp only [isOverride, decide_eq_true_eq] at h
  rcases h with rfl | rfl | rfl | rfl | rfl | rfl | rfl <;> decide

/-- No REX prefix comes before VEX. -/
theorem not_rex_before {pres rest : List UInt8} (hpres : ∀ b ∈ pres, isOverride b) :
    ¬(pres.length > 0 ∧ byteAt (pres ++ rest) (pres.length - 1) &&& 0xf0 = 0x40) := by
  rintro ⟨hpos, hb⟩
  have hlt : pres.length - 1 < pres.length := by omega
  rw [byteAt_append_left hlt, byteAt, List.getD_eq_getElem?_getD, List.getElem?_eq_getElem hlt] at hb
  exact (override_spec (hpres _ (List.getElem_mem hlt))).2 hb

theorem decodeOpcode_vex2 {pres rest : List UInt8} {p op : UInt8} (hpres : ∀ b ∈ pres, isOverride b) :
    decodeOpcode (pres ++ 0xc5 :: p :: op :: rest) pres.length =
      some ⟨pres.length + 3, .TWO_BYTES_0F, op⟩ := by
  have hop : byteAt (pres ++ 0xc5 :: p :: op :: rest) (pres.length + 2) = op :=
    byteAt_append_right pres (0xc5 :: p :: op :: rest) 2
  have hsize : (pres ++ 0xc5 :: p :: op :: rest).length - pres.length > 2 := by
    simp only [List.length_append, List.length_cons]
    omega
  unfold decodeOpcode
  simp only [byteAt_length, hop]
  rw [if_neg (by simp), if_neg (by decide), if_neg (by simp), if_pos ⟨trivial, hsize, not_rex_before hpres⟩]

theorem decodeOpcode_vex3 {pres rest : List UInt8} {p₀ p₁ op : UInt8} (hpres : ∀ b ∈ pres, isOverride b) :
    decodeOpcode (pres ++ 0xc4 :: p₀ :: p₁ :: op :: rest) pres.length =
      (decodeMap (vexMap p₀)).map (⟨pres.length + 4, ·, op⟩) := by
  have hp : byteAt (pres ++ 0xc4 :: p₀ :: p₁ :: op :: rest) (pres.length + 1) = p₀ :=
    byteAt_append_right pres (0xc4 :: p₀ :: p₁ :: op :: rest) 1
  have hop : byteAt (pres ++ 0xc4 :: p₀ :: p₁ :: op :: rest) (pres.length + 3) = op :=
    byteAt_append_right pres (0xc4 :: p₀ :: p₁ :: op :: rest) 3
  have hsize : (pres ++ 0xc4 :: p₀ :: p₁ :: op :: rest).length - pres.length > 3 := by
    simp only [List.length_append, List.length_cons]
    omega
  unfold decodeOpcode
  simp only [byteAt_length, hp, hop]
  rw [if_neg (by simp), if_neg (by decide), if_pos ⟨trivial, not_rex_before hpres⟩, if_pos hsize]
  rfl

theorem decodeOpcode_evex {pres rest : List UInt8} {p₀ p₁ p₂ op : UInt8} (hp₁ : p₁ &&& 0x04 = 0x04) :
    decodeOpcode (pres ++ 0x62 :: p₀ :: p₁ :: p₂ :: op :: rest) pres.length =
      (if ~~~p₀ &&& 0x0c = 0x0c then decodeMap (p₀ &&& 0x03) else none).map
        (⟨pres.length + 5, ·, op⟩) := by
  have hb : ∀ k, byteAt (pres ++ 0x62 :: p₀ :: p₁ :: p₂ :: op :: rest) (pres.length + k) =
      byteAt (0x62 :: p₀ :: p₁ :: p₂ :: op :: rest) k := byteAt_append_right pres _
  have hsize : (pres ++ 0x62 :: p₀ :: p₁ :: p₂ :: op :: rest).length - pres.length > 4 := by
    simp only [List.length_append, List.length_cons]
    omega
  have h1 : byteAt (pres ++ 0x62 :: p₀ :: p₁ :: p₂ :: op :: rest) (pres.length + 1) = p₀ := hb 1
  have h2 : byteAt (pres ++ 0x62 :: p₀ :: p₁ :: p₂ :: op :: rest) (pres.length + 2) = p₁ := hb 2
  have h4 : byteAt (pres ++ 0x62 :: p₀ :: p₁ :: p₂ :: op :: rest) (pres.length + 4) = op := hb 4
  unfold decodeOpcode
  simp only [byteAt_length, h1, h2, h4, hp₁, hsize]
  rw [if_neg (by simp), if_pos trivial]
  simp only [true_and, and_true]
  split <;> rfl

/-! ### Operands -/

/-- Where the opcode is decoded: the encoding and the opcode, and whether the code knows the map. -/
def decodedOpcode : Opcode → Option (Encoding × UInt8)
  | .one op => some (.SINGLE_BYTE, op)
  | .two op => some (.TWO_BYTES_0F, op)
  | .three38 op => some (.THREE_BYTES_0F38, op)
  | .three3A op => some (.THREE_BYTES_0F3A, op)
  | .vex2 _ op => some (.TWO_BYTES_0F, op)
  | .vex3 p₀ _ op => (decodeMap (vexMap p₀)).map (·, op)
  | .evex p₀ _ _ op =>
    (if evexMap p₀ = 1 ∨ evexMap p₀ = 2 ∨ evexMap p₀ = 3 then decodeMap (evexMap p₀) else none).map (·, op)

/-- The opcodes of the one-byte map with a ModRM byte are no prefixes, and nothing else either that the
decoder treats on its own. -/
theorem modRMOne_spec : ∀ op, modRMOne op = true → (op ≠ 0x62 ∧ op ≠ 0xc4 ∧ op ≠ 0xc5 ∧ op ≠ 0x0f) ∧
    isLegacy op = false ∧ isREX op = false ∧ isMovImm op = false := by decide

theorem modRMTwo_spec {op : UInt8} (h : modRMTwo op = true) : op ≠ 0x38 ∧ op ≠ 0x3a := by
  constructor <;>
    · rintro rfl
      exact absurd h (by decide)

/-- The check of an EVEX prefix passes the maps up to the third only. -/
theorem evex_map : ∀ p₀ : UInt8, p₀ &&& 0x08 = 0 →
    (if ~~~p₀ &&& 0x0c = 0x0c then decodeMap (p₀ &&& 0x03) else none) =
      if evexMap p₀ = 1 ∨ evexMap p₀ = 2 ∨ evexMap p₀ = 3 then decodeMap (evexMap p₀) else none := by
  decide

theorem operand_pres {pres : List UInt8} {o : Opcode} (h : o.Valid pres) :
    ∀ b ∈ pres, isLegacy b ∨ isREX b := by
  have hoverride : (∀ b ∈ pres, isOverride b) → ∀ b ∈ pres, isLegacy b ∨ isREX b :=
    fun hp b hb => Or.inl (override_spec (hp b hb)).1
  cases o with
  | one op => exact h.1
  | two op => exact h.1
  | three38 op => exact h
  | three3A op => exact h
  | vex2 p op => exact hoverride h.1
  | vex3 p₀ p₁ op => exact hoverride h.1
  | evex p₀ p₁ p₂ op => exact hoverride h.1

theorem operand_head {pres : List UInt8} {o : Opcode} (h : o.Valid pres) (rest : List UInt8) :
    ∀ b ∈ (o.bytes ++ rest).head?, ¬isLegacy b ∧ ¬isREX b := by
  intro b hb
  cases o with
  | one op =>
      obtain rfl : op = b := by simpa [Opcode.bytes] using hb
      obtain ⟨-, h1, h2, -⟩ := modRMOne_spec op h.2
      simp [h1, h2]
  | two op | three38 op | three3A op | vex2 p op | vex3 p₀ p₁ op | evex p₀ p₁ p₂ op =>
      simp only [Opcode.bytes, List.cons_append, List.head?_cons, Option.mem_def, Option.some.injEq] at hb
      subst hb
      decide

theorem decodeOpcode_operand {pres rest : List UInt8} {o : Opcode} (h : o.Valid pres) :
    decodeOpcode (pres ++ (o.bytes ++ rest)) pres.length =
      (decodedOpcode o).map fun d => ⟨pres.length + o.bytes.length, d.1, d.2⟩ := by
  cases o with
  | one op =>
      obtain ⟨⟨h1, h2, h3, h4⟩, -⟩ := modRMOne_spec op h.2
      exact decodeOpcode_one h1 h2 h3 h4
  | two op =>
      obtain ⟨h1, h2⟩ := modRMTwo_spec h.2
      exact decodeOpcode_two h1 h2
  | three38 op => exact decodeOpcode_three (Or.inl ⟨rfl, rfl⟩)
  | three3A op => exact decodeOpcode_three (Or.inr ⟨rfl, rfl⟩)
  | vex2 p op => exact decodeOpcode_vex2 h.1
  | vex3 p₀ p₁ op =>
      refine (decodeOpcode_vex3 h.1).trans ?_
      rw [decodedOpcode, Option.map_map]
      rfl
  | evex p₀ p₁ p₂ op =>
      refine (decodeOpcode_evex h.2.2.1).trans ?_
      rw [evex_map p₀ h.2.1, decodedOpcode, Option.map_map]
      rfl

theorem rewrite_not_copied (relax : Bool) (out : List UInt8) (diff : Int) (opcode rest : List UInt8) :
    (rewrite relax out diff opcode rest).outcome ≠ .copied := by
  unfold rewrite
  split <;> nofun

theorem pushReturnAddress_not_copied (o : Options) (addr offset : Int) (size : Nat) (pic : Bool) :
    (pushReturnAddress o addr offset size pic).outcome ≠ .copied := by
  unfold pushReturnAddress
  simp only
  repeat' split
  all_goals nofun

theorem relocateIndirectCall_not_copied (o : Options) (addr offset : Int) (bytes : List UInt8)
    (pic relax : Bool) (rex : UInt8) (i : Nat) :
    (relocateIndirectCall o addr offset bytes pic relax rex i).outcome ≠ .copied := by
  have hpush := pushReturnAddress_not_copied o addr offset bytes.length pic
  unfold relocateIndirectCall
  simp only
  split
  · exact hpush
  · repeat' split
    all_goals first | exact rewrite_not_copied _ _ _ _ _ | nofun

theorem ripModRM_spec : ∀ reg : UInt8, reg < 8 → (ripModRM reg &&& 0xc0) >>> 6 = 0x0 ∧
    ripModRM reg &&& 0x7 = 0x05 ∧ (ripModRM reg &&& 0x38) >>> 3 = reg := by decide

/-- An operand behind an opcode of a map that the code knows is found. -/
theorem operand_found {bytes : List UInt8} {i : Nat} {encoding : Encoding} {op reg : UInt8} (o : Options)
    (addr offset : Int) (pic relax : Bool) (hop : decodeOpcode bytes (decodePrefix bytes).i = some ⟨i, encoding, op⟩)
    (hmovimm : encoding = .SINGLE_BYTE → isMovImm op = false) (hsize : i + 5 ≤ bytes.length) (hreg : reg < 8)
    (hmodRM : byteAt bytes i = ripModRM reg) :
    (relocate o addr offset bytes pic relax).outcome ≠ .copied ∧ getInstrPCRelativeIndex bytes = i + 1 := by
  obtain ⟨hmod, hrm, -⟩ := ripModRM_spec reg hreg
  have hmov : ¬(encoding = .SINGLE_BYTE ∧ isMovImm op = true) := fun h => by
    rw [hmovimm h.1] at h
    exact absurd h.2 (by decide)
  have h1 : ¬bytes.length - i = 1 := by omega
  have h4 : ¬bytes.length - i = 4 := by omega
  have h5 : ¬bytes.length - i < 5 := by omega
  constructor
  · unfold relocate
    simp only [hop, h1, h4, false_and, and_false, if_false]
    split
    · exact relocateIndirectCall_not_copied _ _ _ _ _ _ _ _
    · unfold relocateGeneric
      simp only [hmodRM, hmod, hrm]
      rw [if_neg h5, if_neg hmov, if_pos ⟨trivial, trivial, by omega⟩]
      exact rewrite_not_copied _ _ _ _ _
  · unfold getInstrPCRelativeIndex
    simp only [hop, h1, h4, false_and, and_false, if_false, hmodRM, hmod, hrm]
    rw [if_neg h5, if_neg hmov]
    rfl

/-- A bad VEX or EVEX prefix is taken to have no pc-relative operand. -/
theorem unknown_map {bytes : List UInt8} (o : Options) (addr offset : Int) (pic relax : Bool)
    (hop : decodeOpcode bytes (decodePrefix bytes).i = none) :
    (relocate o addr offset bytes pic relax).outcome = .copied ∧ getInstrPCRelativeIndex bytes = 0 := by
  constructor
  · simp only [relocate, hop]
  · simp only [getInstrPCRelativeIndex, hop]

/-! ### Branches -/

/-- The direct branches that are looked for, with `n` bytes behind the opcode. -/
def knownBranch (op : OpcodeInfo) (n : Nat) : Prop :=
  (op.encoding = .SINGLE_BYTE ∧ n = 1 ∧ (op.opcode = 0xE3 ∨ op.opcode = 0xEB ∨ isJcc8 op.opcode)) ∨
  (op.encoding = .SINGLE_BYTE ∧ n = 4 ∧ (op.opcode = 0xE8 ∨ op.opcode = 0xE9)) ∨
  (op.encoding = .TWO_BYTES_0F ∧ n = 4 ∧ isJcc32 op.opcode)

section
variable {bytes : List UInt8} {op : OpcodeInfo} (o : Options) (addr offset : Int) (pic relax : Bool)

theorem branch_found (hdec : decodeOpcode bytes (decodePrefix bytes).i = some op)
    (h : knownBranch op (bytes.length - op.i)) :
    (relocate o addr offset bytes pic relax).outcome ≠ .copied ∧ getInstrPCRelativeIndex bytes = op.i := by
  constructor
  · unfold relocate
    simp only [hdec]
    by_cases h0 : op.encoding = .SINGLE_BYTE ∧ op.opcode = 0xFF ∧ bytes.length - op.i ≥ 1 ∧
        (byteAt bytes op.i &&& 0x38) >>> 3 = 0x02
    · rw [if_pos h0]
      exact relocateIndirectCall_not_copied _ _ _ _ _ _ _ _
    rw [if_neg h0]
    split
    · exact rewrite_not_copied _ _ _ _ _
    rename_i h1
    split
    · exact rewrite_not_copied _ _ _ _ _
    rename_i h2
    split
    · exact rewrite_not_copied _ _ _ _ _
    rename_i h3
    split
    · split
      · exact pushReturnAddress_not_copied _ _ _ _ _
      · exact rewrite_not_copied _ _ _ _ _
    rename_i h4
    split
    · exact rewrite_not_copied _ _ _ _ _
    rename_i h5
    split
    · exact rewrite_not_copied _ _ _ _ _
    rename_i h6
    rcases h with ⟨he, hn, hop | hop | hop⟩ | ⟨he, hn, hop | hop⟩ | ⟨he, hn, hop⟩
    · exact absurd ⟨he, hn, hop⟩ h1
    · exact absurd ⟨he, hn, hop⟩ h2
    · exact absurd ⟨he, hn, hop⟩ h3
    · exact absurd ⟨he, hn, hop⟩ h4
    · exact absurd ⟨he, hn, hop⟩ h5
    · exact absurd ⟨he, hn, hop⟩ h6
  · unfold getInstrPCRelativeIndex
    simp only [hdec]
    split
    · rfl
    rename_i h1
    split
    · rfl
    rename_i h2
    split
    · rfl
    rename_i h3
    rcases h with h | h | h
    · exact absurd h h1
    · exact absurd h h2
    · exact absurd h h3

/-- Everything else that is too short for an operand is copied. -/
theorem other_copied (hdec : decodeOpcode bytes (decodePrefix bytes).i = some op)
    (hcall : op.opcode ≠ 0xFF) (h : ¬knownBranch op (bytes.length - op.i)) (hsize : bytes.length - op.i < 5) :
    (relocate o addr offset bytes pic relax).outcome = .copied ∧ getInstrPCRelativeIndex bytes = 0 := by
  simp only [knownBranch, not_or] at h
  obtain ⟨h1, h2, h3⟩ := h
  constructor
  · unfold relocate
    simp only [hdec]
    rw [if_neg fun hc => hcall hc.2.1, if_neg fun hc => h1 ⟨hc.1, hc.2.1, Or.inl hc.2.2⟩,
      if_neg fun hc => h1 ⟨hc.1, hc.2.1, Or.inr (Or.inl hc.2.2)⟩,
      if_neg fun hc => h1 ⟨hc.1, hc.2.1, Or.inr (Or.inr hc.2.2)⟩,
      if_neg fun hc => h2 ⟨hc.1, hc.2.1, Or.inl hc.2.2⟩,
      if_neg fun hc => h2 ⟨hc.1, hc.2.1, Or.inr hc.2.2⟩, if_neg fun hc => h3 hc]
    unfold relocateGeneric
    simp only [if_pos hsize]
  · unfold getInstrPCRelativeIndex
    simp only [hdec]
    rw [if_neg h1, if_neg h2, if_neg h3, if_pos hsize]

end

/-- A branch of the one-byte map, which is decoded up to its displacement. -/
theorem decode_one {pres : List UInt8} (op : UInt8) (rest : List UInt8) (hpres : ∀ b ∈ pres, isLegacy b ∨ isREX b)
    (h : (op ≠ 0x62 ∧ op ≠ 0xc4 ∧ op ≠ 0xc5 ∧ op ≠ 0x0f) ∧ isLegacy op = false ∧ isREX op = false) :
    decodeOpcode (pres ++ op :: rest) (decodePrefix (pres ++ op :: rest)).i =
      some ⟨pres.length + 1, .SINGLE_BYTE, op⟩ := by
  obtain ⟨⟨h1, h2, h3, h4⟩, h5, h6⟩ := h
  rw [decodePrefix_append hpres fun b hb => by
    obtain rfl : op = b := by simpa using hb
    simp [h5, h6]]
  exact decodeOpcode_one h1 h2 h3 h4

/-- The opcodes of the branches with eight bits are no prefixes; the loops are not looked for. -/
theorem short_spec : ∀ op, (X86.isJcc8 op ∨ isLoop op ∨ op = 0xe3 ∨ op = 0xeb) →
    ((op ≠ 0x62 ∧ op ≠ 0xc4 ∧ op ≠ 0xc5 ∧ op ≠ 0x0f) ∧ isLegacy op = false ∧ isREX op = false) ∧ op ≠ 0xff ∧
      (isLoop op = false ↔ op = 0xE3 ∨ op = 0xEB ∨ isJcc8 op = true) := by
  decide

theorem jcc_spec {op : UInt8} (h : X86.isJcc32 op = true) : op ≠ 0x38 ∧ op ≠ 0x3a ∧ isJcc32 op = true := by
  refine ⟨?_, ?_, h⟩ <;>
    · rintro rfl
      exact absurd h (by decide)

/-- The code finds the displacement at `i`. -/
def Finds (o : Options) (addr offset : Int) (pic relax : Bool) (bytes : List UInt8) (i : Nat) : Prop :=
  (relocate o addr offset bytes pic relax).outcome ≠ .copied ∧ getInstrPCRelativeIndex bytes = i

section
variable (o : Options) (addr offset : Int) (pic relax : Bool) {pres : List UInt8}

theorem short_finds {op d : UInt8} (hpres : ∀ b ∈ pres, isLegacy b ∨ isREX b)
    (hop : X86.isJcc8 op ∨ isLoop op ∨ op = 0xe3 ∨ op = 0xeb) :
    Finds o addr offset pic relax (pres ++ [op, d]) (pres.length + 1) ↔ isLoop op = false := by
  obtain ⟨hone, hff, hloop⟩ := short_spec op hop
  have hdec := decode_one op [d] hpres hone
  have hsize : (pres ++ [op, d]).length - (pres.length + 1) = 1 := by
    simp only [List.length_append, List.length_cons, List.length_nil]
    omega
  by_cases hl : isLoop op = false
  · have hb := branch_found o addr offset pic relax hdec (by
      rw [hsize]
      exact Or.inl ⟨rfl, rfl, hloop.mp hl⟩)
    exact ⟨fun _ => hl, fun _ => hb⟩
  · have hb := other_copied o addr offset pic relax hdec hff (by
      rw [hsize]
      rintro (⟨-, -, h⟩ | ⟨-, h, -⟩ | ⟨h, -, -⟩)
      · exact hl (hloop.mpr h)
      · cases h
      · cases h) (by rw [hsize]; decide)
    exact ⟨fun h => absurd hb.1 h.1, fun h => absurd h hl⟩

theorem near_finds {op : UInt8} {disp : List UInt8} (hpres : ∀ b ∈ pres, isLegacy b ∨ isREX b)
    (hop : op = 0xe8 ∨ op = 0xe9) (hdisp : disp.length = 4) :
    Finds o addr offset pic relax (pres ++ op :: disp) (pres.length + 1) := by
  have hdec := decode_one op disp hpres (by rcases hop with rfl | rfl <;> decide)
  have hsize : (pres ++ op :: disp).length - (pres.length + 1) = 4 := by
    simp only [List.length_append, List.length_cons, hdisp]
    omega
  refine branch_found o addr offset pic relax hdec ?_
  rw [hsize]
  exact Or.inr (Or.inl ⟨rfl, rfl, hop⟩)

theorem jcc_finds {op : UInt8} {disp : List UInt8} (hpres : ∀ b ∈ pres, isLegacy b ∨ isREX b)
    (hop : X86.isJcc32 op) (hdisp : disp.length = 4) :
    Finds o addr offset pic relax (pres ++ 0x0f :: op :: disp) (pres.length + 2) := by
  obtain ⟨h1, h2, h3⟩ := jcc_spec hop
  have hdec : decodeOpcode (pres ++ 0x0f :: op :: disp) (decodePrefix (pres ++ 0x0f :: op :: disp)).i =
      some ⟨pres.length + 2, .TWO_BYTES_0F, op⟩ := by
    rw [decodePrefix_append hpres fun b hb => by
      obtain rfl : 0x0f = b := by simpa using hb
      decide]
    exact decodeOpcode_two h1 h2
  have hsize : (pres ++ 0x0f :: op :: disp).length - (pres.length + 2) = 4 := by
    simp only [List.length_append, List.length_cons, hdisp]
    omega
  refine branch_found o addr offset pic relax hdec ?_
  rw [hsize]
  exact Or.inr (Or.inr ⟨rfl, rfl, h3⟩)

/-- The second byte of `xbegin` looks like a register operand. -/
theorem xbegin_copied {disp : List UInt8} (hpres : ∀ b ∈ pres, isLegacy b ∨ isREX b)
    (hdisp : disp.length = 4) :
    (relocate o addr offset (pres ++ 0xc7 :: 0xf8 :: disp) pic relax).outcome = .copied ∧
      getInstrPCRelativeIndex (pres ++ 0xc7 :: 0xf8 :: disp) = 0 := by
  have hdec := decode_one 0xc7 (0xf8 :: disp) hpres (by decide)
  have hsize : (pres ++ 0xc7 :: 0xf8 :: disp).length - (pres.length + 1) = 5 := by
    simp only [List.length_append, List.length_cons, hdisp]
    omega
  have hmodRM : byteAt (pres ++ 0xc7 :: 0xf8 :: disp) (pres.length + 1) = 0xf8 :=
    byteAt_append_right pres (0xc7 :: 0xf8 :: disp) 1
  constructor
  · unfold relocate
    simp only [hdec, hsize, hmodRM]
    rw [if_neg (by decide), if_neg (by decide), if_neg (by decide), if_neg (by decide),
      if_neg (by decide), if_neg (by decide), if_neg (by decide)]
    unfold relocateGeneric
    simp only [hsize, hmodRM]
    rw [if_neg (by decide), if_neg (by decide), if_neg fun h => absurd h.1 (by decide)]
  · unfold getInstrPCRelativeIndex
    simp only [hdec, hsize, hmodRM]
    rw [if_neg (by decide), if_neg (by decide), if_neg (by decide), if_neg (by decide),
      if_neg (by decide), if_neg (by decide)]

/-- Whether the code knows the map of an opcode. -/
def knownMap : Opcode → Prop
  | .evex p₀ _ _ _ => evexMap p₀ = 1 ∨ evexMap p₀ = 2 ∨ evexMap p₀ = 3
  | _ => True

theorem decodedOpcode_spec {pres : List UInt8} {op : Opcode} (h : op.Valid pres) :
    (knownMap op → ∃ d, decodedOpcode op = some d ∧ (d.1 = .SINGLE_BYTE → isMovImm d.2 = false)) ∧
      (¬knownMap op → decodedOpcode op = none) := by
  have hmap : ∀ {m : UInt8} {b : UInt8}, m = 1 ∨ m = 2 ∨ m = 3 →
      ∃ d, (decodeMap m).map (·, b) = some d ∧ (d.1 = .SINGLE_BYTE → isMovImm d.2 = false) := by
    rintro m b (rfl | rfl | rfl) <;> exact ⟨_, rfl, nofun⟩
  cases op with
  | one b => exact ⟨fun _ => ⟨_, rfl, fun _ => (modRMOne_spec b h.2).2.2.2⟩, fun hn => absurd trivial hn⟩
  | two b | three38 b | three3A b | vex2 p b =>
      exact ⟨fun _ => ⟨_, rfl, nofun⟩, fun hn => absurd trivial hn⟩
  | vex3 p₀ p₁ b => exact ⟨fun _ => hmap h.2, fun hn => absurd trivial hn⟩
  | evex p₀ p₁ p₂ b =>
      refine ⟨fun hk => ?_, fun hn => ?_⟩
      · have hk' : evexMap p₀ = 1 ∨ evexMap p₀ = 2 ∨ evexMap p₀ = 3 := hk
        rw [decodedOpcode, if_pos hk']
        exact hmap hk'
      · have hn' : ¬(evexMap p₀ = 1 ∨ evexMap p₀ = 2 ∨ evexMap p₀ = 3) := hn
        rw [decodedOpcode, if_neg hn']
        rfl

theorem operand_finds {op : Opcode} {reg : UInt8} {rest : List UInt8} (hop : op.Valid pres) (hreg : reg < 8)
    (hrest : 4 ≤ rest.length) :
    Finds o addr offset pic relax (pres ++ (op.bytes ++ ripModRM reg :: rest))
      (pres.length + (op.bytes.length + 1)) ↔ knownMap op := by
  have hdec : decodeOpcode (pres ++ (op.bytes ++ ripModRM reg :: rest))
      (decodePrefix (pres ++ (op.bytes ++ ripModRM reg :: rest))).i =
      (decodedOpcode op).map fun d => ⟨pres.length + op.bytes.length, d.1, d.2⟩ := by
    rw [decodePrefix_append (operand_pres hop) (operand_head hop _)]
    exact decodeOpcode_operand hop
  obtain ⟨hknown, hunknown⟩ := decodedOpcode_spec hop
  by_cases hk : knownMap op
  · obtain ⟨d, hd, hmov⟩ := hknown hk
    rw [hd] at hdec
    refine ⟨fun _ => hk, fun _ => ?_⟩
    have hmodRM : byteAt (pres ++ (op.bytes ++ ripModRM reg :: rest)) (pres.length + op.bytes.length) =
        ripModRM reg := by
      rw [byteAt_append_right, byteAt_length]
    have hsize : pres.length + op.bytes.length + 5 ≤ (pres ++ (op.bytes ++ ripModRM reg :: rest)).length := by
      simp only [List.length_append, List.length_cons]
      omega
    exact operand_found o addr offset pic relax hdec hmov hsize hreg hmodRM
  · rw [hunknown hk] at hdec
    obtain ⟨h1, -⟩ := unknown_map o addr offset pic relax hdec
    exact ⟨fun h => absurd h1 h.1, fun h => absurd h hk⟩

end

/-- The instructions whose displacement is found. -/
def found : Form → Prop
  | .short op => isLoop op = false
  | .near _ | .jcc _ => True
  | .xbegin => False
  | .operand op _ => knownMap op

/-- **Pc-relative instructions.** A valid instruction whose meaning depends on its address is rewritten or
refused, and its displacement found, unless it is one of the loop instructions, `xbegin`, or has an EVEX
prefix with a map past the third: these are copied. -/
theorem pcrelative_found (x : PCRelative) (o : Options) (addr offset : Int) (pic relax : Bool) :
    ((relocate o addr offset x.bytes pic relax).outcome ≠ .copied ∧
      getInstrPCRelativeIndex x.bytes = x.index) ↔ found x.form := by
  show Finds o addr offset pic relax x.bytes x.index ↔ found x.form
  obtain ⟨pres, form, disp, imm, hvalid, hdisp, himm, -⟩ := x
  simp only [PCRelative.bytes, PCRelative.index]
  cases form with
  | short op =>
      obtain ⟨d, rfl⟩ := List.length_eq_one_iff.mp hdisp
      obtain rfl := List.length_eq_zero_iff.mp himm
      rw [List.append_nil, List.append_assoc]
      exact short_finds o addr offset pic relax hvalid.1 hvalid.2
  | near op =>
      obtain rfl := List.length_eq_zero_iff.mp himm
      rw [List.append_nil, List.append_assoc]
      exact ⟨fun _ => trivial, fun _ => near_finds o addr offset pic relax hvalid.1 hvalid.2 hdisp⟩
  | jcc op =>
      obtain rfl := List.length_eq_zero_iff.mp himm
      rw [List.append_nil, List.append_assoc]
      exact ⟨fun _ => trivial, fun _ => jcc_finds o addr offset pic relax hvalid.1 hvalid.2 hdisp⟩
  | xbegin =>
      obtain rfl := List.length_eq_zero_iff.mp himm
      rw [List.append_nil, List.append_assoc]
      obtain ⟨h1, -⟩ := xbegin_copied o addr offset pic relax hvalid hdisp
      exact ⟨fun h => absurd h1 h.1, fun h => h.elim⟩
  | operand op reg =>
      have hbytes : pres ++ (Form.operand op reg).head ++ disp ++ imm =
          pres ++ (op.bytes ++ ripModRM reg :: (disp ++ imm)) := by
        simp only [Form.head, List.append_assoc, List.cons_append, List.nil_append]
      have hlen : (Form.operand op reg).head.length = op.bytes.length + 1 := by
        simp only [Form.head, List.length_append, List.length_cons, List.length_nil]
      rw [hbytes, hlen]
      exact operand_finds o addr offset pic relax hvalid.1 hvalid.2 (by
        rw [List.length_append, hdisp]
        exact Nat.le_add_right _ _)

/-- `loop -2`, which is copied as it is. -/
def sampleLoop : PCRelative :=
  { pres := [], form := .short 0xe2, disp := [0xfe], imm := [], valid := by decide, disp_size := rfl
    imm_size := rfl, short_enough := by decide }

theorem loop_is_copied :
    ¬((relocate defaultOptions 0x401000 0x10000000 sampleLoop.bytes true false).outcome ≠ .copied ∧
      getInstrPCRelativeIndex sampleLoop.bytes = sampleLoop.index) := by decide

end E9Patch
