import E9Patch.ApiModel
import E9Patch.Fallible

/-!
What the writing functions do to the bytes and their states. A cell is a byte with its state. Every
round of every loop works on one cell, and takes it a `CellStep` further: a byte that is patched or
locked keeps its value and stays so, and a byte that no instruction uses any more does not come back.
-/

namespace E9Patch
open Bytes Binary Fallible

/-- Patched or locked. -/
def Protected (s : ByteState) : Prop := s.kind = .PATCHED ∨ s.locked = true

/-- No longer part of an instruction that could still be patched. -/
def Dead (s : ByteState) : Prop := s ≠ STATE_UNKNOWN ∧ s ≠ STATE_INSTRUCTION ∧ s ≠ STATE_QUEUED

instance (s : ByteState) : Decidable (Protected s) := inferInstanceAs (Decidable (_ ∨ _))
instance (s : ByteState) : Decidable (Dead s) := inferInstanceAs (Decidable (_ ∧ _))

abbrev Cell := UInt8 × ByteState

def Binary.cell (B : Binary) (q : Nat) : Cell := (B.bytes q, B.state q)

structure CellStep (c d : Cell) : Prop where
  guarded : Protected c.2 → d.1 = c.1 ∧ Protected d.2
  dead : Dead c.2 → Dead d.2
  known : c.2 ≠ STATE_UNKNOWN → d.2 ≠ STATE_UNKNOWN

/-- Every cell makes a step, or none. -/
def Evolves (B B' : Binary) : Prop := ∀ q, CellStep (B.cell q) (B'.cell q)

/-- Only bytes and states change. -/
def Rewrites (B B' : Binary) : Prop := B' = { B with bytes := B'.bytes, state := B'.state }

theorem CellStep.refl (c : Cell) : CellStep c c := ⟨fun h => ⟨rfl, h⟩, id, id⟩

theorem CellStep.trans {c d e : Cell} (h : CellStep c d) (h' : CellStep d e) : CellStep c e :=
  ⟨fun hc => ⟨(h'.guarded (h.guarded hc).2).1.trans (h.guarded hc).1, (h'.guarded (h.guarded hc).2).2⟩,
    fun hc => h'.dead (h.dead hc), fun hc => h'.known (h.known hc)⟩

theorem Evolves.refl (B : Binary) : Evolves B B := fun _ => .refl _

theorem Evolves.trans {B B' B'' : Binary} (h : Evolves B B') (h' : Evolves B' B'') : Evolves B B'' :=
  fun q => (h q).trans (h' q)

theorem Rewrites.refl (B : Binary) : Rewrites B B := rfl

theorem Rewrites.trans {B B' B'' : Binary} (h : Rewrites B B') (h' : Rewrites B' B'') :
    Rewrites B B'' := by
  unfold Rewrites at h h' ⊢
  rw [h', h]

theorem Rewrites.Is {B B' : Binary} (h : Rewrites B B') : B'.Is = B.Is := by rw [h]

/-- Binaries that differ in bytes and states at most, and not in these, are equal. -/
theorem Rewrites.eq {B B' : Binary} (h : Rewrites B B') (hc : ∀ q, B'.cell q = B.cell q) : B' = B := by
  rw [h]
  have h1 : B'.bytes = B.bytes := by
    funext q
    exact congrArg Prod.fst (hc q)
  have h2 : B'.state = B.state := by
    funext q
    exact congrArg Prod.snd (hc q)
  rw [h1, h2]

/-! ### Cells -/

@[simp] theorem cell_fst (B : Binary) (q : Nat) : (B.cell q).1 = B.bytes q := rfl
@[simp] theorem cell_snd (B : Binary) (q : Nat) : (B.cell q).2 = B.state q := rfl

theorem cell_setByte_setState (B : Binary) (p q : Nat) (b : UInt8) (s : ByteState) :
    ((B.setByte p b).setState p s).cell q = if q = p then (b, s) else B.cell q := by
  by_cases h : q = p <;> simp [cell, setByte, setState, h]

theorem cell_setState (B : Binary) (p q : Nat) (s : ByteState) :
    (B.setState p s).cell q = if q = p then (B.bytes p, s) else B.cell q := by
  by_cases h : q = p <;> simp [cell, setState, h]

theorem cell_write (B : Binary) (p q : Nat) (b : UInt8) :
    (B.write p b).cell q = if q = p then (b, STATE_PATCHED) else B.cell q :=
  cell_setByte_setState B p q b _

theorem rewrites_set (B : Binary) (p : Nat) (b : UInt8) (s : ByteState) :
    Rewrites B ((B.setByte p b).setState p s) := rfl

theorem rewrites_setState (B : Binary) (p : Nat) (s : ByteState) : Rewrites B (B.setState p s) := rfl

theorem rewrites_write (B : Binary) (p : Nat) (b : UInt8) : Rewrites B (B.write p b) := rfl

theorem assert_ok {p : Prop} [Decidable p] {u : Unit} : assert p = .ok u ↔ p := by
  by_cases h : p <;> simp [assert, h]

theorem deref_ok {α : Type} {p : Option α} {a : α} : deref p = .ok a ↔ p = some a := by
  cases p <;> simp [deref]

/-! ### The steps -/

theorem not_protected_of_unused {s : ByteState} (h : unused s = true) : ¬Protected s ∧ ¬s = STATE_QUEUED := by
  rcases s with ⟨k, l⟩
  revert h
  cases k <;> cases l <;> decide

theorem dead_patched : Dead STATE_PATCHED := by decide
theorem dead_free : Dead STATE_FREE := by decide

theorem dead_lock (s : ByteState) : Dead s.lock := by
  rcases s with ⟨k, l⟩
  cases k <;> simp [Dead, ByteState.lock, STATE_UNKNOWN, STATE_INSTRUCTION, STATE_QUEUED]

theorem CellStep.write {c : Cell} {b : UInt8} (h : Protected c.2 → b = c.1) :
    CellStep c (b, STATE_PATCHED) :=
  ⟨fun hc => ⟨h hc, Or.inl rfl⟩, fun _ => dead_patched, fun _ => dead_patched.1⟩

theorem CellStep.lock (c : Cell) : CellStep c (c.1, c.2.lock) :=
  ⟨fun _ => ⟨rfl, Or.inr rfl⟩, fun _ => dead_lock c.2, fun _ => (dead_lock c.2).1⟩

theorem CellStep.free {c : Cell} (b : UInt8) (h : c.2 = STATE_INSTRUCTION ∨ c.2 = STATE_QUEUED) :
    CellStep c (b, STATE_FREE) := by
  refine ⟨fun hc => ?_, fun _ => dead_free, fun _ => dead_free.1⟩
  rcases h with h | h <;> rw [h] at hc <;> exact absurd hc (by decide)

/-- What `patchUnused` does to a byte. -/
def freed (c : Cell) : Cell :=
  if c.2 = STATE_INSTRUCTION ∨ c.2 = STATE_QUEUED then (0xcc, STATE_FREE) else c

theorem CellStep.freed (c : Cell) : CellStep c (freed c) := by
  unfold E9Patch.freed
  split
  · exact .free _ ‹_›
  · exact .refl c

/-- What `patchJump` does to a byte of the rel32, which is to be `b`, within the instruction and behind
it. -/
def RelByte (inside : Prop) (b : UInt8) (c d : Cell) : Prop :=
  (inside ∧ (unused c.2 ∨ c = (b, STATE_PATCHED)) ∧ d = (b, STATE_PATCHED)) ∨
  (¬inside ∧ c.2 = STATE_FREE ∧ d = (b, STATE_PATCHED)) ∨
  (¬inside ∧ c.2 ≠ STATE_QUEUED ∧ c.2 ≠ STATE_FREE ∧ d = (c.1, c.2.lock))

theorem RelByte.step {inside : Prop} {b : UInt8} {c d : Cell} (h : RelByte inside b c d) :
    CellStep c d := by
  rcases h with ⟨-, hu | hc, rfl⟩ | ⟨-, hf, rfl⟩ | ⟨-, -, -, rfl⟩
  · exact .write fun hp => absurd hp (not_protected_of_unused hu).1
  · exact .write fun _ => by rw [hc]
  · refine .write fun hp => absurd hp ?_
    rw [hf]
    decide
  · exact .lock c

theorem RelByte.protected {inside : Prop} {b : UInt8} {c d : Cell} (h : RelByte inside b c d) :
    Protected d.2 := by
  rcases h with ⟨-, -, rfl⟩ | ⟨-, -, rfl⟩ | ⟨-, -, -, rfl⟩
  · exact Or.inl rfl
  · exact Or.inl rfl
  · exact Or.inr rfl

/-! ### The loops -/

/-- A loop over bytes at `base` that may change bytes and states. -/
theorem loop_cells (I base : Nat) {l : List Nat} (Φ : Nat → Cell → Cell → Prop)
    {f : Binary → Nat → Except Fault Binary} {B B' : Binary} (hnodup : l.Nodup)
    (hstep : ∀ i ∈ l, ∀ {C C'}, C.Is I = B.Is I → f C i = .ok C' → Rewrites C C' ∧
      (∀ q, q ≠ base + i → C'.cell q = C.cell q) ∧ Φ i (C.cell (base + i)) (C'.cell (base + i)))
    (h : l.foldlM f B = .ok B') :
    Rewrites B B' ∧ (∀ q, (∀ i ∈ l, q ≠ base + i) → B'.cell q = B.cell q) ∧
      ∀ i ∈ l, Φ i (B.cell (base + i)) (B'.cell (base + i)) := by
  have hn : (l.map (base + ·)).Nodup := hnodup.map fun _ _ h => Nat.add_left_cancel h
  obtain ⟨hr, hother, hl⟩ := foldlM_cells (base + ·) Φ (Rewrites B) hn
    (fun i hi {C C'} hC hf => by
      obtain ⟨h1, h2, h3⟩ := hstep i hi (by rw [hC.Is]) hf
      exact ⟨hC.trans h1, h2, h3⟩) (Rewrites.refl B) h
  refine ⟨hr, fun q hq => hother q fun hm => ?_, hl⟩
  obtain ⟨i, hi, rfl⟩ := List.mem_map.mp hm
  exact hq i hi rfl

/-- Such a loop takes every cell a step further if its rounds do. -/
theorem evolves_of_loop {base : Nat} {l : List Nat} (Φ : Nat → Cell → Cell → Prop) {B B' : Binary}
    (hΦ : ∀ i ∈ l, ∀ {c d}, Φ i c d → CellStep c d)
    (hother : ∀ q, (∀ i ∈ l, q ≠ base + i) → B'.cell q = B.cell q)
    (hl : ∀ i ∈ l, Φ i (B.cell (base + i)) (B'.cell (base + i))) : Evolves B B' := by
  intro q
  by_cases hq : ∃ i ∈ l, q = base + i
  · obtain ⟨i, hi, rfl⟩ := hq
    exact hΦ i hi (hl i hi)
  · rw [hother q fun i hi he => hq ⟨i, hi, he⟩]
    exact .refl _

/-- `patchUnused` frees the bytes of the instruction from `offset` on. -/
theorem patchUnused_spec {B B' : Binary} {I offset : Nat} (h : B.patchUnused I offset = .ok B') :
    offset ≤ (B.Is I).size ∧ Rewrites B B' ∧
      ∀ q, B'.cell q = if (B.Is I).offset + offset ≤ q ∧ q < (B.Is I).offset + (B.Is I).size then
        freed (B.cell q) else B.cell q := by
  unfold patchUnused at h
  obtain ⟨_, hle, h⟩ := bind_ok.mp h
  rw [assert_ok] at hle
  obtain ⟨hr, hother, hl⟩ := loop_cells I (B.Is I).offset (fun _ c d => d = freed c) List.nodup_range' (fun i _ C C' hI hf => by
      simp only [patchUnusedByte, Except.ok.injEq, hI] at hf
      subst hf
      unfold freed
      split
      · exact ⟨rewrites_set _ _ _ _, fun q hq => by rw [cell_setByte_setState, if_neg hq],
          by rw [cell_setByte_setState, if_pos rfl]; simp_all⟩
      · exact ⟨Rewrites.refl _, fun _ _ => rfl, by simp_all⟩) h
  refine ⟨hle, hr, fun q => ?_⟩
  split
  · rename_i hq
    have := hl (q - (B.Is I).offset) (by rw [List.mem_range'_1]; omega)
    rwa [show (B.Is I).offset + (q - (B.Is I).offset) = q from by omega] at this
  · rename_i hq
    refine hother q fun i hi he => hq ?_
    rw [List.mem_range'_1] at hi
    omega

theorem patchUnused_evolves {B B' : Binary} {I offset : Nat} (h : B.patchUnused I offset = .ok B') :
    Evolves B B' := by
  intro q
  rw [(patchUnused_spec h).2.2 q]
  split
  · exact .freed _
  · exact .refl _

theorem patchRelByte_spec {C C' : Binary} {I offset i : Nat} {rel32 : Int}
    (h : patchRelByte I offset rel32 C i = .ok C') :
    Rewrites C C' ∧ (∀ q, q ≠ (C.Is I).offset + offset + i → C'.cell q = C.cell q) ∧
      RelByte (offset + i < (C.Is I).size) (byteAt (le32 rel32) i)
        (C.cell ((C.Is I).offset + offset + i)) (C'.cell ((C.Is I).offset + offset + i)) := by
  unfold patchRelByte at h
  split at h
  · rename_i hin
    obtain ⟨_, hs, h⟩ := bind_ok.mp h
    rw [assert_ok] at hs
    cases h
    refine ⟨rewrites_write _ _ _, fun q hq => by rw [cell_write, if_neg hq], Or.inl ⟨hin, ?_, ?_⟩⟩
    · exact hs.imp id fun hs => Prod.ext hs.2 hs.1
    · rw [cell_write, if_pos rfl]
  · rename_i hout
    obtain ⟨_, hs, h⟩ := bind_ok.mp h
    rw [assert_ok] at hs
    cases h
    split
    · rename_i hfree
      refine ⟨rewrites_write _ _ _, fun q hq => by rw [cell_write, if_neg hq], Or.inr (Or.inl ⟨hout, hfree, ?_⟩)⟩
      rw [cell_write, if_pos rfl]
    · rename_i hfree
      refine ⟨rewrites_setState _ _ _, fun q hq => by rw [cell_setState, if_neg hq],
        Or.inr (Or.inr ⟨hout, hs, hfree, ?_⟩)⟩
      rw [cell_setState, if_pos rfl]
      rfl

/-- What `patchJump` leaves behind: the opcode, and the four bytes of the displacement to `entry`. -/
structure JumpWritten (B B' : Binary) (I offset : Nat) (entry : Int) : Prop where
  window : offset ≤ PATCH_MAX - JMP_SIZE
  inside : offset < (B.Is I).size
  range : INT32_MIN ≤ entry - ((B.Is I).addr + offset + JMP_SIZE) ∧
    entry - ((B.Is I).addr + offset + JMP_SIZE) ≤ INT32_MAX
  rewrites : Rewrites B B'
  unused : unused (B.STATE I offset) = true
  opcode : B'.cell ((B.Is I).offset + offset) = (0xE9, STATE_PATCHED)
  rel32 : ∀ i < 4, RelByte (offset + 1 + i < (B.Is I).size)
    (byteAt (le32 (entry - ((B.Is I).addr + offset + JMP_SIZE))) i)
    (B.cell ((B.Is I).offset + (offset + 1) + i)) (B'.cell ((B.Is I).offset + (offset + 1) + i))
  other : ∀ q, ¬((B.Is I).offset + offset ≤ q ∧ q < (B.Is I).offset + offset + 5) →
    B'.cell q = B.cell q

theorem patchJump_spec {B B' : Binary} {P : Patch} {offset : Nat} (h : B.patchJump P offset = .ok B') :
    ∃ A, P.A = some A ∧ JumpWritten B B' P.I offset (B.entry A) := by
  unfold patchJump at h
  obtain ⟨_, h1, h⟩ := bind_ok.mp h
  obtain ⟨_, h2, h⟩ := bind_ok.mp h
  obtain ⟨A, h3, h⟩ := bind_ok.mp h
  obtain ⟨_, h4, h⟩ := bind_ok.mp h
  obtain ⟨_, h5, h⟩ := bind_ok.mp h
  rw [assert_ok] at h1 h2 h4 h5
  rw [deref_ok] at h3
  obtain ⟨hr, hother, hl⟩ := loop_cells P.I ((B.Is P.I).offset + (offset + 1))
    (fun i => RelByte (offset + 1 + i < (B.Is P.I).size)
      (byteAt (le32 (B.entry A - ((B.Is P.I).addr + offset + JMP_SIZE))) i))
    List.nodup_range (fun i _ C C' hI hf => by
      have hI' : C.Is P.I = B.Is P.I := hI
      have := patchRelByte_spec hf
      rwa [hI'] at this) h
  refine ⟨A, h3, h1, h2, h4, (rewrites_write _ _ _).trans hr, h5, ?_, fun i hi => ?_, fun q hq => ?_⟩
  · rw [hother _ fun i _ => by omega, cell_write, if_pos rfl]
  · have := hl i (List.mem_range.mpr hi)
    rwa [cell_write, if_neg (by omega)] at this
  · rw [hother q fun i hi => by rw [List.mem_range] at hi; omega, cell_write, if_neg (by omega)]

theorem JumpWritten.evolves {B B' : Binary} {I offset : Nat} {entry : Int}
    (h : JumpWritten B B' I offset entry) : Evolves B B' := by
  intro q
  by_cases hq : (B.Is I).offset + offset ≤ q ∧ q < (B.Is I).offset + offset + 5
  · by_cases h0 : q = (B.Is I).offset + offset
    · rw [h0, h.opcode]
      exact .write fun hp => absurd hp (not_protected_of_unused h.unused).1
    · have := (h.rel32 (q - ((B.Is I).offset + (offset + 1))) (by omega)).step
      rwa [show (B.Is I).offset + (offset + 1) + (q - ((B.Is I).offset + (offset + 1))) = q
        from by omega] at this
  · rw [h.other q hq]
    exact .refl _

/-- `patchJumpPrefix` writes the first `pre` bytes. -/
theorem patchJumpPrefix_spec {B B' : Binary} {I pre : Nat} (h : B.patchJumpPrefix I pre = .ok B') :
    pre ≤ 4 ∧ pre < (B.Is I).size ∧ Rewrites B B' ∧
      (∀ i < pre, unused (B.STATE I i) = true ∧
        B'.cell ((B.Is I).offset + i) = (byteAt prefixes i, STATE_PATCHED)) ∧
      ∀ q, ¬((B.Is I).offset ≤ q ∧ q < (B.Is I).offset + pre) → B'.cell q = B.cell q := by
  unfold patchJumpPrefix at h
  obtain ⟨_, h1, h⟩ := bind_ok.mp h
  rw [assert_ok] at h1
  obtain ⟨hr, hother, hl⟩ := loop_cells I (B.Is I).offset
    (fun i c d => unused c.2 = true ∧ d = (byteAt prefixes i, STATE_PATCHED))
    List.nodup_range (fun i _ C C' hI hf => by
      unfold patchPrefixByte at hf
      obtain ⟨_, hs, hf⟩ := bind_ok.mp hf
      rw [assert_ok] at hs
      cases hf
      rw [hI]
      refine ⟨rewrites_write _ _ _, fun q hq => by rw [cell_write, if_neg hq], ?_, ?_⟩
      · rw [← hI]
        exact hs
      · rw [cell_write, if_pos rfl]) h
  refine ⟨h1.2, h1.1, hr, fun i hi => hl i (List.mem_range.mpr hi), fun q hq => hother q fun i hi he => ?_⟩
  rw [List.mem_range] at hi
  omega

theorem patchJumpPrefix_evolves {B B' : Binary} {I pre : Nat} (h : B.patchJumpPrefix I pre = .ok B') :
    Evolves B B' := by
  obtain ⟨-, -, -, hl, hother⟩ := patchJumpPrefix_spec h
  intro q
  by_cases hq : (B.Is I).offset ≤ q ∧ q < (B.Is I).offset + pre
  · obtain ⟨h1, h2⟩ := hl (q - (B.Is I).offset) (by omega)
    rw [show (B.Is I).offset + (q - (B.Is I).offset) = q from by omega] at h2
    rw [h2]
    refine .write fun hp => absurd hp ?_
    rw [STATE, show (B.Is I).offset + (q - (B.Is I).offset) = q from by omega] at h1
    exact (not_protected_of_unused h1).1
  · rw [hother q hq]
    exact .refl _

theorem patchShortJump_spec {B B' : Binary} {I : Nat} {addr : Int}
    (h : B.patchShortJump I addr = .ok B') :
    -2 ^ 7 ≤ addr - ((B.Is I).addr + 2) ∧ addr - ((B.Is I).addr + 2) ≤ 2 ^ 7 - 1 ∧
      unused (B.STATE I 0) = true ∧ unused (B.STATE I 1) = true ∧
      B' = (B.write (B.Is I).offset 0xEB).write ((B.Is I).offset + 1)
        (byte (addr - ((B.Is I).addr + 2))) := by
  unfold patchShortJump at h
  obtain ⟨_, h1, h⟩ := bind_ok.mp h
  obtain ⟨_, h2, h⟩ := bind_ok.mp h
  obtain ⟨_, h3, h⟩ := bind_ok.mp h
  rw [assert_ok] at h1 h2 h3
  cases h
  refine ⟨h1.1, h1.2, h2, ?_, rfl⟩
  have hne : (B.Is I).offset + 1 ≠ (B.Is I).offset := by omega
  simpa [STATE, Binary.write, setState, setByte, hne] using h3

/-- Writing to a byte that is not in use. -/
theorem write_evolves {B : Binary} {p : Nat} {b : UInt8} (h : unused (B.state p) = true) :
    Evolves B (B.write p b) := by
  intro q
  rw [cell_write]
  split
  · rename_i hq
    rw [hq]
    exact .write fun hp => absurd hp (not_protected_of_unused h).1
  · exact .refl _

theorem lock_evolves (B : Binary) (p : Nat) : Evolves B (B.setState p (B.state p).lock) := by
  intro q
  rw [cell_setState]
  split
  · rename_i hq
    rw [hq]
    exact .lock (B.cell p)
  · exact .refl _

theorem patchShortJump_evolves {B B' : Binary} {I : Nat} {addr : Int}
    (h : B.patchShortJump I addr = .ok B') : Evolves B B' := by
  obtain ⟨-, -, h1, h2, rfl⟩ := patchShortJump_spec h
  refine (write_evolves h1).trans (write_evolves ?_)
  have hne : (B.Is I).offset + 1 ≠ (B.Is I).offset := by omega
  simpa [STATE, Binary.write, setState, setByte, hne] using h2

end E9Patch
