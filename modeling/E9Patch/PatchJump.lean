import E9Patch.PatchUndo

/-!
Punned jumps. The bounds that `makeBounds` computes keep the rel32 of a jump to what the bytes that cannot
be written are already, so that `patchJump` leaves a jump to the entry of the allocated trampoline
behind, whatever part of it lies in other instructions. All five bytes are then patched or locked, and the
jump stays.
-/

namespace E9Patch
open Bytes Binary Fallible

/-! ### Bounds -/

theorem scan_ge (p : Nat → Bool) (n size : Nat) : size ≤ scan p n size := by
  induction n generalizing size with
  | zero => exact Nat.le_refl _
  | succ n ih =>
      unfold scan
      split
      · have := ih (size + 1)
        omega
      · exact Nat.le_refl _

theorem scan_le (p : Nat → Bool) (n size : Nat) : scan p n size ≤ size + n := by
  induction n generalizing size with
  | zero => exact Nat.le_refl _
  | succ n ih =>
      unfold scan
      split
      · have := ih (size + 1)
        omega
      · omega

theorem scan_spec {p : Nat → Bool} {n size i : Nat} (h1 : size ≤ i) (h2 : i < scan p n size) :
    p i = true := by
  induction n generalizing size with
  | zero => exact absurd h2 (by simp only [scan]; omega)
  | succ n ih =>
      unfold scan at h2
      split at h2
      · rename_i hp
        rcases Nat.lt_or_eq_of_le h1 with h1 | rfl
        · exact ih h1 h2
        · exact hp
      · omega

/-- What a jump can be written over, from its second byte on. -/
theorem jumpRun_spec {B : Binary} {I pre i : Nat} (h1 : pre < i) (h2 : i < B.jumpRun I pre) :
    i < (B.Is I).size ∨ B.STATE I i = STATE_FREE := by
  unfold jumpRun at h2
  simp only at h2
  by_cases h : i < scan (fun i => decide (B.STATE I i = STATE_INSTRUCTION ∨ B.STATE I i = STATE_FREE))
      ((B.Is I).size - (pre + 1)) (pre + 1)
  · have := scan_spec h1 h
    have hle := scan_le (fun i => decide (B.STATE I i = STATE_INSTRUCTION ∨ B.STATE I i = STATE_FREE))
      ((B.Is I).size - (pre + 1)) (pre + 1)
    by_cases hs : i < (B.Is I).size
    · exact Or.inl hs
    · omega
  · have := scan_spec (Nat.le_of_not_lt h) h2
    exact Or.inr (by simpa using this)

theorem lt_jumpRun (B : Binary) (I pre : Nat) : pre < B.jumpRun I pre := by
  unfold jumpRun
  exact Nat.lt_of_lt_of_le (Nat.lt_succ_self pre) ((scan_ge _ _ _).trans (scan_ge _ _ _))

theorem uword32_word (m : Nat → UInt8) (p : Nat) :
    uword32 (word m p) 0 = (m p).toNat + 2 ^ 8 * (m (p + 1)).toNat + 2 ^ 16 * (m (p + 2)).toNat +
      2 ^ 24 * (m (p + 3)).toNat := rfl

/-- A rel32 in the range has the bytes past the first `diff` as they are. -/
theorem rel32Range_byte {B : Binary} {I pre diff : Nat} {rel : Int}
    (h1 : (B.rel32Range I pre diff false).1 ≤ rel) (h2 : rel ≤ (B.rel32Range I pre diff false).2)
    {i : Nat} (hi : diff ≤ i) (hi' : i < 4) :
    byteAt (le32 rel) i = B.bytes ((B.Is I).offset + pre + 1 + i) := by
  have hd : ¬(diff ≥ 4 ∨ false = true) := by simp only [Bool.false_eq_true, or_false]; omega
  unfold rel32Range at h1 h2
  rw [if_neg hd, uword32_word] at h1 h2
  generalize (B.Is I).offset + pre + 1 = p at h1 h2 ⊢
  have hb0 := (B.bytes p).toNat_lt
  have hb1 := (B.bytes (p + 1)).toNat_lt
  have hb2 := (B.bytes (p + 2)).toNat_lt
  have hb3 := (B.bytes (p + 3)).toNat_lt
  have hcases : (diff = 0 ∨ diff = 1 ∨ diff = 2 ∨ diff = 3) ∧ (i = 0 ∨ i = 1 ∨ i = 2 ∨ i = 3) := by omega
  -- the byte of `rel` is that of the word below
  suffices h : (rel / 2 ^ (8 * i)) % 256 = (B.bytes (p + i)).toNat by
    rw [← byte_of_toNat (B.bytes (p + i))]
    have hb := (B.bytes (p + i)).toNat_lt
    have he : byteAt (le32 rel) i = byte (rel / 2 ^ (8 * i)) := by
      obtain ⟨-, rfl | rfl | rfl | rfl⟩ := hcases <;> simp [byteAt, le32]
    rw [he]
    exact byte_congr (by omega)
  simp only [signed32] at h1 h2
  obtain ⟨rfl | rfl | rfl | rfl, rfl | rfl | rfl | rfl⟩ := hcases <;>
    simp only [Nat.reduceMul, Nat.add_zero] at * <;> omega

theorem rel32Range_le (B : Binary) (I pre diff : Nat) (trap : Bool) :
    (B.rel32Range I pre diff trap).1 ≤ (B.rel32Range I pre diff trap).2 := by
  unfold rel32Range
  split
  · simp [INT32_MIN, INT32_MAX]
  · rename_i hd
    simp only [uword32_word, signed32]
    have hb0 := (B.bytes ((B.Is I).offset + pre + 1)).toNat_lt
    have hb1 := (B.bytes ((B.Is I).offset + pre + 1 + 1)).toNat_lt
    have hb2 := (B.bytes ((B.Is I).offset + pre + 1 + 2)).toNat_lt
    have hb3 := (B.bytes ((B.Is I).offset + pre + 1 + 3)).toNat_lt
    have hcases : diff = 0 ∨ diff = 1 ∨ diff = 2 ∨ diff = 3 := by
      simp only [not_or] at hd
      omega
    rcases hcases with rfl | rfl | rfl | rfl <;> simp only [Nat.reduceMul] <;> omega

/-- What `makeBounds` promises of an entry address `x` for a jump in `I` behind `pre` bytes. -/
structure WithinBounds (B : Binary) (T : Trampoline) (I J pre : Nat) (trap : Bool) (x : Int) : Prop where
  inside : pre < (B.Is I).size ∨ trap = true
  jump : (B.rel32Range I pre (B.jumpRun I pre - pre - 1) trap).1 ≤ x - ((B.Is I).addr + pre + JMP_SIZE) ∧
    x - ((B.Is I).addr + pre + JMP_SIZE) ≤ (B.rel32Range I pre (B.jumpRun I pre - pre - 1) trap).2
  back : (B.Is I).addr + pre + JMP_SIZE - INT32_MAX ≤ x ∧
    x ≤ (B.Is I).addr + pre + JMP_SIZE - INT32_MIN - TRAMPOLINE_MAX
  trampoline : ∃ t, getTrampolineBounds B T J = .ok t ∧ t.lb ≤ x ∧ x ≤ t.ub
  pcrel : (B.Is I).pcrel32_idx ≠ 0 ∨ (B.Is I).pcrel8_idx ≠ 0 →
    B.pcrelTarget I - INT32_MAX ≤ x ∧ x ≤ B.pcrelTarget I - INT32_MIN - TRAMPOLINE_MAX

/-- `x` is within the bounds. -/
def Bounds.Has (b : Bounds) (x : Int) : Prop := b.lb ≤ x ∧ x ≤ b.ub

theorem has_meet {b : Bounds} {lo hi x : Int} : (meet b lo hi).Has x ↔ b.Has x ∧ lo ≤ x ∧ x ≤ hi := by
  simp only [meet, Bounds.Has]
  omega

/-- The range of the rel32 is never turned round. -/
theorem has_jumpBounds {B : Binary} {I pre diff : Nat} {trap : Bool} {x : Int}
    (h : (B.jumpBounds I pre diff trap).Has x) :
    ((B.rel32Range I pre diff trap).1 ≤ x - ((B.Is I).addr + pre + JMP_SIZE) ∧
      x - ((B.Is I).addr + pre + JMP_SIZE) ≤ (B.rel32Range I pre diff trap).2) ∧
    (B.Is I).addr + pre + JMP_SIZE - INT32_MAX ≤ x ∧
      x ≤ (B.Is I).addr + pre + JMP_SIZE - INT32_MIN - TRAMPOLINE_MAX := by
  have hle := rel32Range_le B I pre diff trap
  simp only [jumpBounds] at h
  rw [if_neg (by omega), has_meet] at h
  simp only [Bounds.Has] at h
  omega

theorem has_userBounds {B : Binary} {b : Bounds} {x : Int} (h : (B.userBounds b).Has x) : b.Has x := by
  unfold userBounds at h
  have hm : (meet b B.options.option_mem_lb B.options.option_mem_ub).Has x := by
    cases hmode : B.mode <;> simp only [hmode] at h <;>
      first | exact h | exact ⟨h.1, h.2.trans (min_le_left _ _)⟩
  exact (has_meet.mp hm).1

theorem has_pcrelBounds {B : Binary} {I : Nat} {b : Bounds} {x : Int} (h : (B.pcrelBounds I b).Has x) :
    b.Has x ∧ ((B.Is I).pcrel32_idx ≠ 0 ∨ (B.Is I).pcrel8_idx ≠ 0 →
      B.pcrelTarget I - INT32_MAX ≤ x ∧ x ≤ B.pcrelTarget I - INT32_MIN - TRAMPOLINE_MAX) := by
  unfold pcrelBounds at h
  split at h
  · rw [has_meet] at h
    exact ⟨h.1, fun _ => h.2⟩
  · rename_i hn
    exact ⟨h, fun hp => absurd hp hn⟩

theorem makeBounds_spec {B : Binary} {T : Trampoline} {I J pre : Nat} {trap : Bool} {b : Bounds}
    (h : B.makeBounds T I J pre trap = .ok b) {x : Int} (hx : b.Has x) :
    WithinBounds B T I J pre trap x := by
  unfold makeBounds at h
  obtain ⟨_, hin, h⟩ := bind_ok.mp h
  obtain ⟨_, -, h⟩ := bind_ok.mp h
  obtain ⟨t, ht, h⟩ := bind_ok.mp h
  rw [assert_ok] at hin
  cases h
  obtain ⟨h1, hpcrel⟩ := has_pcrelBounds (has_userBounds hx)
  obtain ⟨h2, ht1, ht2⟩ := has_meet.mp h1
  obtain ⟨hjump, hback⟩ := has_jumpBounds h2
  exact ⟨hin, hjump, hback, ⟨t, ht, ht1, ht2⟩, hpcrel⟩

/-! ### Allocation -/

/-- `A` was allocated for `T` and `I`; nothing else changed. -/
structure Allocated (B B' : Binary) (A : Nat) (T : Trampoline) (I : Option Nat) : Prop where
  binary : B' = { B with allocator := B'.allocator }
  added : ∃ ids a, Balanced B.allocator ids ∧ Added B.allocator B'.allocator ids A a
  I : (B'.alloc A).I = I
  T : (B'.alloc A).T = some T

theorem defined_ok {α : Type} {x : Except Overflow α} {a : α} : defined x = .ok a ↔ x = .ok a := by
  cases x <;> simp [defined, Except.mapError]

/-- What a successful `allocate` of the binary does. -/
theorem allocate_inv {B B' : Binary} {lb ub : Int} {T : Trampoline} {I : Option Nat} {same_page : Bool}
    {A : Nat} (h : B.allocate lb ub T I same_page = .ok (some (B', A))) :
    ∃ presize tmpsize t, getTrampolinePrologueSize B I = .ok presize ∧ getTrampolineSize B T I = .ok tmpsize ∧
      B.allocator.allocate checked B.options.option_Oorder lb ub presize.toNat tmpsize (some T) I same_page =
        .ok (some (t, A)) ∧ B' = { B with allocator := t } := by
  unfold Binary.allocate at h
  split at h
  · cases h
  · obtain ⟨presize, hpre, h⟩ := bind_ok.mp h
    obtain ⟨tmpsize, htmp, h⟩ := bind_ok.mp h
    obtain ⟨o, ho, h⟩ := bind_ok.mp h
    cases o with
    | none => cases h
    | some r =>
        cases h
        exact ⟨presize, tmpsize, r.1, hpre, htmp, defined_ok.mp ho, rfl⟩

theorem allocate_spec {B B' : Binary} {lb ub : Int} {T : Trampoline} {I : Option Nat} {same_page : Bool}
    {A : Nat} (hB : B.Allocates) (h : B.allocate lb ub T I same_page = .ok (some (B', A))) :
    Allocated B B' A T I ∧ lb ≤ B'.entry A ∧ B'.entry A ≤ ub := by
  obtain ⟨ids, hb⟩ := hB
  obtain ⟨presize, tmpsize, t, -, -, ht, rfl⟩ := allocate_inv h
  obtain ⟨LB, h1, h2, -, h3⟩ := allocate_ok hb ht
  have hrec := h3.live.2
  refine ⟨⟨rfl, ⟨ids, _, hb, h3⟩, ?_, ?_⟩, ?_⟩ <;> simp only [alloc, entry, hrec]
  exact ⟨h1, h2⟩

theorem Allocated.keeps {B B' : Binary} {A : Nat} {T : Trampoline} {I : Option Nat}
    (h : Allocated B B' A T I) : KeepsAllocations B.allocator B'.allocator := by
  obtain ⟨ids, a, hb, ha⟩ := h.added
  exact ha.keeps hb

theorem Allocated.live {B B' : Binary} {A : Nat} {T : Trampoline} {I : Option Nat}
    (h : Allocated B B' A T I) : Live B'.allocator A := by
  obtain ⟨ids, a, hb, ha⟩ := h.added
  exact ha.live.1

/-- Freeing `A` gives back the allocations of before. -/
theorem Allocated.deallocate {B B' : Binary} {A : Nat} {T : Trampoline} {I : Option Nat}
    (h : Allocated B B' A T I) {t : Tree Trampoline Nat} (ht : SameAllocations B'.allocator t) :
    SameAllocations B.allocator (t.deallocate (some A)) := by
  obtain ⟨ids, a, hb, ha⟩ := h.added
  exact ha.remove hb ht

theorem allocatePunnedJump_spec {B B' : Binary} {I pre J A : Nat} {T : Trampoline} (hB : B.Allocates)
    (h : B.allocatePunnedJump I pre J T = .ok (some (B', A))) :
    Allocated B B' A T (some J) ∧ WithinBounds B T I J pre false (B'.entry A) := by
  unfold allocatePunnedJump at h
  split at h
  · cases h
  · obtain ⟨b, hb, h⟩ := bind_ok.mp h
    obtain ⟨h1, h2⟩ := allocate_spec hB h
    exact ⟨h1, makeBounds_spec hb h2⟩

theorem allocateTrap_spec {B B' : Binary} {I A : Nat} {T : Trampoline} (hB : B.Allocates)
    (h : B.allocateTrap I T = .ok (some (B', A))) :
    Allocated B B' A T (some I) ∧ WithinBounds B T I I 0 true (B'.entry A) := by
  unfold allocateTrap at h
  obtain ⟨b, hb, h⟩ := bind_ok.mp h
  obtain ⟨h1, h2⟩ := allocate_spec hB h
  exact ⟨h1, makeBounds_spec hb h2⟩

/-! ### Jumps -/

/-- There is a jump to `entry` at byte `offset` of `I`, and nothing will change its bytes. -/
structure Jumps (B : Binary) (I offset : Nat) (entry : Int) : Prop where
  opcode : B.PATCH I offset = 0xE9
  rel32 : word32 (word B.bytes ((B.Is I).offset + offset + 1)) 0 = entry - ((B.Is I).addr + offset + JMP_SIZE)
  locked : ∀ i < 5, Protected (B.STATE I (offset + i))

theorem Jumps.evolves {B B' : Binary} {I offset : Nat} {entry : Int} (h : Jumps B I offset entry)
    (he : Evolves B B') (hoff : (B'.Is I).offset = (B.Is I).offset) (haddr : (B'.Is I).addr = (B.Is I).addr) :
    Jumps B' I offset entry := by
  have hbyte : ∀ i < 5, B'.bytes ((B.Is I).offset + offset + i) = B.bytes ((B.Is I).offset + offset + i) ∧
      Protected (B'.state ((B.Is I).offset + offset + i)) := fun i hi => by
    have := h.locked i hi
    rw [STATE, ← Nat.add_assoc] at this
    exact (he _).guarded this
  refine ⟨?_, ?_, fun i hi => ?_⟩
  · rw [PATCH, hoff]
    exact (hbyte 0 (by omega)).1.trans h.opcode
  · rw [hoff, haddr, ← h.rel32]
    have h1 := (hbyte 1 (by omega)).1
    have h2 := (hbyte 2 (by omega)).1
    have h3 := (hbyte 3 (by omega)).1
    have h4 := (hbyte 4 (by omega)).1
    simp only [word, Nat.add_assoc, Nat.reduceAdd] at h1 h2 h3 h4 ⊢
    rw [h1, h2, h3, h4]
  · rw [STATE, hoff, ← Nat.add_assoc]
    exact (hbyte i hi).2

/-- The four bytes of a word in memory, where they are known. -/
theorem word_eq {m : Nat → UInt8} {p : Nat} {x : Int} (h : ∀ i < 4, m (p + i) = byteAt (le32 x) i) :
    word m p = le32 x := by
  have h0 := h 0 (by omega)
  have h1 := h 1 (by omega)
  have h2 := h 2 (by omega)
  have h3 := h 3 (by omega)
  simp only [Nat.add_zero] at h0
  simp only [word, h0, h1, h2, h3]
  rfl

theorem WithinBounds.punned {B : Binary} {T : Trampoline} {I J pre : Nat} {x : Int}
    (h : WithinBounds B T I J pre false x) {i : Nat} (hi : i < 4) (hrun : B.jumpRun I pre ≤ pre + 1 + i) :
    B.bytes ((B.Is I).offset + (pre + 1) + i) =
      byteAt (le32 (x - ((B.Is I).addr + pre + JMP_SIZE))) i := by
  rw [rel32Range_byte h.jump.1 h.jump.2 (by omega) hi, ← Nat.add_assoc]

/-- A jump that was written within its bounds is a jump to its entry. The bytes in other instructions
are not written, and the bounds see to it that they are right. -/
theorem JumpWritten.jumps {B B' : Binary} {I offset : Nat} {entry : Int}
    (h : JumpWritten B B' I offset entry)
    (hb : ∀ i < 4, B.jumpRun I offset ≤ offset + 1 + i →
      B.bytes ((B.Is I).offset + (offset + 1) + i) =
        byteAt (le32 (entry - ((B.Is I).addr + offset + JMP_SIZE))) i) :
    Jumps B' I offset entry := by
  have hIs := h.rewrites.Is
  have hbyte : ∀ i < 4, B'.bytes ((B.Is I).offset + (offset + 1) + i) =
      byteAt (le32 (entry - ((B.Is I).addr + offset + JMP_SIZE))) i := by
    intro i hi
    have hrel := h.rel32 i hi
    rcases hrel with ⟨-, -, hd⟩ | ⟨-, -, hd⟩ | ⟨hout, -, hfree, hd⟩
    · exact congrArg Prod.fst hd
    · exact congrArg Prod.fst hd
    · refine (congrArg Prod.fst hd).trans (hb i hi (Nat.le_of_not_lt fun hlt => ?_))
      rcases jumpRun_spec (by omega) hlt with hin | hf
      · exact hout hin
      · rw [STATE, ← Nat.add_assoc, ← Nat.add_assoc] at hf
        exact hfree hf
  refine ⟨?_, ?_, fun i hi => ?_⟩
  · rw [PATCH, hIs]
    exact congrArg Prod.fst h.opcode
  · rw [hIs, Nat.add_assoc, word_eq hbyte, ← List.append_nil (le32 _), word32_le32]
    have := h.range
    simp only [INT32_MIN, INT32_MAX] at this
    exact signed32_eq this.1 (by omega)
  · rw [STATE, hIs]
    rcases Nat.eq_zero_or_pos i with rfl | hpos
    · rw [show B'.state ((B.Is I).offset + (offset + 0)) = STATE_PATCHED from congrArg Prod.snd h.opcode]
      exact Or.inl rfl
    · have := (h.rel32 (i - 1) (by omega)).protected
      rwa [cell_snd, show (B.Is I).offset + (offset + 1) + (i - 1) = (B.Is I).offset + (offset + i)
        from by omega] at this

end E9Patch
