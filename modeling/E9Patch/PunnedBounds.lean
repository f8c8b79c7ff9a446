import E9Patch.PatchTheorems

/-!
How exact the bounds of a punned jump are. What `makeBounds` takes as writable ends before the first
byte that `patchJump` may not overwrite, and the bytes from there on are the high bytes of the rel32: they
select one interval of entry addresses, and that interval is the range of the jump.
-/

namespace E9Patch
open Bytes Binary Fallible

/-! ### The run of writable bytes -/

theorem scan_end {p : Nat → Bool} {n size : Nat} (h : scan p n size < size + n) :
    p (scan p n size) = false := by
  induction n generalizing size with
  | zero => exact absurd h (by simp only [scan]; omega)
  | succ n ih =>
      unfold scan at h ⊢
      split at h
      · rename_i hp
        rw [if_pos hp]
        exact ih (by omega)
      · rename_i hp
        rw [if_neg hp]
        simpa using hp

theorem scan_stop {p : Nat → Bool} {n size : Nat} (h : p size = false) : scan p n size = size := by
  cases n with
  | zero => rfl
  | succ n => rw [scan, if_neg (by rw [h]; decide)]

namespace Binary

/-- A byte that `patchJump` may not overwrite. -/
def Fixed (B : Binary) (I k : Nat) : Prop :=
  if k < (B.Is I).size then unused (B.STATE I k) = false else B.STATE I k ≠ STATE_FREE

instance (B : Binary) (I k : Nat) : Decidable (B.Fixed I k) := by
  unfold Fixed
  infer_instance

/-- The rel32 of a jump behind `pre` bytes of `I` to the address `x`. -/
def rel32To (B : Binary) (I pre : Nat) (x : Int) : Int := x - ((B.Is I).addr + pre + JMP_SIZE)

/-- Byte `i` of the rel32 is there already. -/
def Agrees (B : Binary) (I pre : Nat) (x : Int) (i : Nat) : Prop :=
  B.bytes ((B.Is I).offset + pre + 1 + i) = byteAt (le32 (B.rel32To I pre x)) i

instance (B : Binary) (I pre : Nat) (x : Int) (i : Nat) : Decidable (B.Agrees I pre x i) :=
  inferInstanceAs (Decidable (_ = _))

/-- `x` is within `[jmp_lo, jmp_hi]` of `makeBounds`. -/
def InJumpRange (B : Binary) (I pre : Nat) (x : Int) : Prop :=
  let r := B.rel32Range I pre (B.jumpRun I pre - pre - 1) false
  let jmp_from := (B.Is I).addr + pre + JMP_SIZE
  jmp_from + r.1 ≤ x ∧ x ≤ jmp_from + r.2

instance (B : Binary) (I pre : Nat) (x : Int) : Decidable (B.InJumpRange I pre x) :=
  inferInstanceAs (Decidable (_ ∧ _))

end Binary

/-- The cast to `int32_t` is exact. -/
def FitsInt32 (x : Int) : Prop := INT32_MIN ≤ x ∧ x ≤ INT32_MAX

instance (x : Int) : Decidable (FitsInt32 x) := inferInstanceAs (Decidable (_ ∧ _))

section Run

variable {B : Binary} {I pre k : Nat}

theorem unused_of_free (h : B.STATE I k = STATE_FREE) : unused (B.STATE I k) = true := by
  rw [h]
  decide

/-- No byte of the run is fixed. -/
theorem not_fixed_of_lt_jumpRun (h1 : pre < k) (h2 : k < B.jumpRun I pre) : ¬B.Fixed I k := by
  have hstate : unused (B.STATE I k) = true ∧ (B.STATE I k = STATE_FREE ∨ k < (B.Is I).size) := by
    unfold jumpRun at h2
    simp only at h2
    by_cases h : k < scan (fun i => decide (B.STATE I i = STATE_INSTRUCTION ∨ B.STATE I i = STATE_FREE))
        ((B.Is I).size - (pre + 1)) (pre + 1)
    · have h3 := scan_spec h1 h
      have h4 := scan_le (fun i => decide (B.STATE I i = STATE_INSTRUCTION ∨ B.STATE I i = STATE_FREE))
        ((B.Is I).size - (pre + 1)) (pre + 1)
      exact ⟨by simpa [unused] using h3, Or.inr (by omega)⟩
    · have h3 : B.STATE I k = STATE_FREE := by
        have := scan_spec (Nat.le_of_not_lt h) h2
        simpa using this
      exact ⟨unused_of_free h3, Or.inl h3⟩
  unfold Fixed
  split
  · rw [hstate.1]
    decide
  · rename_i hout
    rcases hstate.2 with hfree | hin
    · exact fun hne => hne hfree
    · exact absurd hin hout

/-- The run ends at a fixed byte, where it ends within `I` or before byte five. -/
theorem fixed_jumpRun (hpre : pre < (B.Is I).size)
    (h : B.jumpRun I pre < (B.Is I).size ∨ B.jumpRun I pre < 5) : B.Fixed I (B.jumpRun I pre) := by
  generalize hp1 : (fun i => decide (B.STATE I i = STATE_INSTRUCTION ∨ B.STATE I i = STATE_FREE)) = p1
  generalize hp2 : (fun i => decide (B.STATE I i = STATE_FREE)) = p2
  generalize hk1 : scan p1 ((B.Is I).size - (pre + 1)) (pre + 1) = k1
  have hrun : B.jumpRun I pre = scan p2 (5 - k1) k1 := by
    unfold jumpRun
    simp only [hp1, hp2, hk1]
  have hge : k1 ≤ B.jumpRun I pre := hrun ▸ scan_ge _ _ _
  unfold Fixed
  by_cases hin : B.jumpRun I pre < (B.Is I).size
  · -- the first loop stopped, and with it the second
    have hend : p1 k1 = false := by
      have : p1 (scan p1 ((B.Is I).size - (pre + 1)) (pre + 1)) = false :=
        scan_end (by rw [hk1]; omega)
      rwa [hk1] at this
    rw [← hp1] at hend
    have hnot : ¬(B.STATE I k1 = STATE_INSTRUCTION ∨ B.STATE I k1 = STATE_FREE) := by simpa using hend
    have hstop : p2 k1 = false := by
      rw [← hp2]
      simpa using fun hf => hnot (Or.inr hf)
    rw [hrun, scan_stop hstop] at hin ⊢
    rw [if_pos hin]
    simpa [unused] using hend
  · rw [if_neg hin]
    have hlt : B.jumpRun I pre < 5 := h.resolve_left hin
    have hend : p2 (B.jumpRun I pre) = false := by
      rw [hrun] at hlt ⊢
      exact scan_end (by omega)
    rw [← hp2] at hend
    simpa using hend

end Run

/-! ### The interval -/

theorem byte_eq_iff {x : Int} {b : UInt8} : byte x = b ↔ x % 256 = b.toNat := by
  constructor
  · rintro rfl
    exact (byte_toNat x).symm
  · intro h
    rw [← byte_of_toNat b]
    exact byte_congr (by omega)

theorem byteAt_le32 (x : Int) {i : Nat} (hi : i < 4) : byteAt (le32 x) i = byte (x / 2 ^ (8 * i)) := by
  have hcases : i = 0 ∨ i = 1 ∨ i = 2 ∨ i = 3 := by omega
  rcases hcases with rfl | rfl | rfl | rfl <;> simp [byteAt, le32]

/-- **The interval.** The range of the rel32 is made of the words whose bytes past the first `diff` are
those that are there. -/
theorem rel32Range_iff (B : Binary) (I pre diff : Nat) (rel : Int) :
    (B.rel32Range I pre diff false).1 ≤ rel ∧ rel ≤ (B.rel32Range I pre diff false).2 ↔
      FitsInt32 rel ∧ ∀ i, diff ≤ i → i < 4 →
        B.bytes ((B.Is I).offset + pre + 1 + i) = byteAt (le32 rel) i := by
  constructor
  · rintro ⟨h1, h2⟩
    refine ⟨?_, fun i hi hi' => (rel32Range_byte h1 h2 hi hi').symm⟩
    unfold rel32Range at h1 h2
    simp only [FitsInt32, INT32_MIN, INT32_MAX]
    split at h1
    · rename_i hd
      rw [if_pos hd] at h2
      exact ⟨h1, h2⟩
    · rename_i hd
      rw [if_neg hd] at h2
      simp only at h1 h2
      have h3 := signed32_range
        (uword32 (word B.bytes ((B.Is I).offset + pre + 1)) 0 -
          uword32 (word B.bytes ((B.Is I).offset + pre + 1)) 0 % 2 ^ (8 * diff))
      have h4 := signed32_range
        (uword32 (word B.bytes ((B.Is I).offset + pre + 1)) 0 -
          uword32 (word B.bytes ((B.Is I).offset + pre + 1)) 0 % 2 ^ (8 * diff) + (2 ^ (8 * diff) - 1))
      omega
  · rintro ⟨⟨hmin, hmax⟩, hbytes⟩
    simp only [INT32_MIN, INT32_MAX] at hmin hmax
    unfold rel32Range
    split
    · exact ⟨hmin, hmax⟩
    · rename_i hd
      have hdiff : diff = 0 ∨ diff = 1 ∨ diff = 2 ∨ diff = 3 := by
        simp only [not_or] at hd
        omega
      rw [uword32_word]
      generalize (B.Is I).offset + pre + 1 = p at hbytes ⊢
      have hbyte : ∀ i, diff ≤ i → i < 4 → rel / 2 ^ (8 * i) % 256 = (B.bytes (p + i)).toNat :=
        fun i h1 h2 => byte_eq_iff.mp (by rw [← byteAt_le32 rel h2, hbytes i h1 h2])
      have hb0 := (B.bytes p).toNat_lt
      have hb1 := (B.bytes (p + 1)).toNat_lt
      have hb2 := (B.bytes (p + 2)).toNat_lt
      have hb3 := (B.bytes (p + 3)).toNat_lt
      have h3 := hbyte 3 (by omega) (by omega)
      simp only [signed32]
      rcases hdiff with rfl | rfl | rfl | rfl
      · have h0 := hbyte 0 (by omega) (by omega)
        have h1 := hbyte 1 (by omega) (by omega)
        have h2 := hbyte 2 (by omega) (by omega)
        simp only [Nat.reduceMul, Nat.add_zero] at *
        omega
      · have h1 := hbyte 1 (by omega) (by omega)
        have h2 := hbyte 2 (by omega) (by omega)
        simp only [Nat.reduceMul] at *
        omega
      · have h2 := hbyte 2 (by omega) (by omega)
        simp only [Nat.reduceMul] at *
        omega
      · simp only [Nat.reduceMul] at *
        omega

theorem inJumpRange_iff {B : Binary} {I pre : Nat} {x : Int} :
    B.InJumpRange I pre x ↔ FitsInt32 (B.rel32To I pre x) ∧
      ∀ i < 4, B.jumpRun I pre ≤ pre + 1 + i → B.Agrees I pre x i := by
  have hlt := lt_jumpRun B I pre
  have hiff := rel32Range_iff B I pre (B.jumpRun I pre - pre - 1) (B.rel32To I pre x)
  have hrange : B.InJumpRange I pre x ↔
      (B.rel32Range I pre (B.jumpRun I pre - pre - 1) false).1 ≤ B.rel32To I pre x ∧
        B.rel32To I pre x ≤ (B.rel32Range I pre (B.jumpRun I pre - pre - 1) false).2 := by
    simp only [InJumpRange, rel32To]
    omega
  rw [hrange, hiff]
  refine and_congr_right fun _ => ⟨fun h i hi hrun => h i (by omega) hi,
    fun h i hi hi' => h i hi' (by omega)⟩

/-! ### The assertions of `patchJump` -/

/-- The bytes and states that a jump behind `pre` bytes of `I` meets are as in `B`. -/
structure SameSite (B C : Binary) (I pre : Nat) : Prop where
  offset : (C.Is I).offset = (B.Is I).offset
  size : (C.Is I).size = (B.Is I).size
  addr : (C.Is I).addr = (B.Is I).addr
  cells : ∀ i < 5, C.cell ((B.Is I).offset + pre + i) = B.cell ((B.Is I).offset + pre + i)

/-- What the allocator does is not seen there. -/
theorem sameSite_allocator (B : Binary) (t : Tree Trampoline Nat) (I pre : Nat) :
    SameSite B { B with allocator := t } I pre := ⟨rfl, rfl, rfl, fun _ _ => rfl⟩

/-- Byte `i` of the rel32 passes the assertion of its loop. -/
def RelOk (C : Binary) (I offset : Nat) (rel : Int) (i : Nat) : Prop :=
  if offset + i < (C.Is I).size then
    unused (C.state ((C.Is I).offset + offset + i)) = true ∨
      (C.state ((C.Is I).offset + offset + i) = STATE_PATCHED ∧
        C.bytes ((C.Is I).offset + offset + i) = byteAt (le32 rel) i)
  else C.state ((C.Is I).offset + offset + i) ≠ STATE_QUEUED

theorem patchRelByte_total {C : Binary} {I offset i : Nat} {rel : Int} (h : RelOk C I offset rel i) :
    ∃ C', patchRelByte I offset rel C i = .ok C' := by
  unfold RelOk at h
  unfold patchRelByte
  simp only
  split at h
  · rename_i hin
    rw [if_pos hin]
    exact ⟨_, bind_ok.mpr ⟨(), assert_ok.mpr h, rfl⟩⟩
  · rename_i hout
    rw [if_neg hout]
    exact ⟨_, bind_ok.mpr ⟨(), assert_ok.mpr h, rfl⟩⟩

/-- The assertion about a byte does not depend on the others. -/
theorem RelOk.congr {C C' : Binary} {I offset i : Nat} {rel : Int} (h : RelOk C I offset rel i)
    (hIs : C'.Is = C.Is)
    (hcell : C'.cell ((C.Is I).offset + offset + i) = C.cell ((C.Is I).offset + offset + i)) :
    RelOk C' I offset rel i := by
  have hb : C'.bytes ((C.Is I).offset + offset + i) = C.bytes ((C.Is I).offset + offset + i) :=
    congrArg Prod.fst hcell
  have hs : C'.state ((C.Is I).offset + offset + i) = C.state ((C.Is I).offset + offset + i) :=
    congrArg Prod.snd hcell
  unfold RelOk at h ⊢
  rwa [hIs, hs, hb]

/-- **The assertions.** `patchJump` succeeds where the jump is in reach, its opcode byte is unused, and
the bytes of the rel32 pass. -/
theorem patchJump_total {C : Binary} {P : Patch} {A pre : Nat} (hA : P.A = some A)
    (hwindow : pre ≤ PATCH_MAX - JMP_SIZE) (hpre : pre < (C.Is P.I).size)
    (hfits : FitsInt32 (C.rel32To P.I pre (C.entry A))) (hop : unused (C.STATE P.I pre) = true)
    (hrel : ∀ i < 4, RelOk C P.I (pre + 1) (C.rel32To P.I pre (C.entry A)) i) :
    ∃ C', C.patchJump P pre = .ok C' := by
  let D := C.write ((C.Is P.I).offset + pre) 0xE9
  have hD : D.Is = C.Is := rfl
  -- the bytes that are left to write pass, whatever was written before
  have hloop : ∃ C', (List.range 4).foldlM
      (patchRelByte P.I (pre + 1) (C.rel32To P.I pre (C.entry A))) D = .ok C' := by
    refine foldlM_total (P := fun l s => l.Nodup ∧ s.Is = C.Is ∧
      ∀ i ∈ l, RelOk s P.I (pre + 1) (C.rel32To P.I pre (C.entry A)) i) ?_
      ⟨List.nodup_range, hD, fun i hi => ?_⟩
    · rintro i l s ⟨hnodup, hIs, hok⟩
      obtain ⟨t, ht⟩ := patchRelByte_total (hok i (by simp))
      obtain ⟨hr, hother, -⟩ := patchRelByte_spec ht
      rw [List.nodup_cons] at hnodup
      refine ⟨t, ht, hnodup.2, hr.Is.trans hIs, fun j hj => (hok j (by simp [hj])).congr hr.Is ?_⟩
      have hne : j ≠ i := fun he => hnodup.1 (he ▸ hj)
      exact hother _ (by omega)
    · refine (hrel i (List.mem_range.mp hi)).congr hD ?_
      rw [cell_write, if_neg (by omega)]
  obtain ⟨C', hC'⟩ := hloop
  refine ⟨C', ?_⟩
  unfold patchJump
  simp only [bind_ok]
  exact ⟨(), assert_ok.mpr hwindow, (), assert_ok.mpr hpre, A, by rw [hA]; rfl, (),
    assert_ok.mpr hfits, (), assert_ok.mpr hop, hC'⟩

/-! ### The punned jump -/

def punTemplate : Template := ⟨0, [.BYTES [0x90]]⟩

/-- An instruction of two bytes, the first of which was patched, before a patched byte and two free ones. -/
def punBinary : Binary :=
  { newBinary sampleFile .ELF_EXE defaultOptions with
    count := 1
    Is := fun k => if k = 0 then { Instr.zero with offset := 16, size := 2, addr := 0x400010 } else .zero
    bytes := fun _ => 0
    state := fun p => if p = 17 then STATE_INSTRUCTION else if p = 19 ∨ p = 20 then STATE_FREE
      else STATE_PATCHED }

end E9Patch
