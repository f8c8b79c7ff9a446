import E9Patch.PatchOutcome

/-!
Which instructions a tactic touches. An instruction that was not patched has all its bytes open or in the
queue, one that was has a byte that is closed for good, and a tactic writes to the instructions that it
makes patches for, and else only over bytes that are free; all others it locks at most.
-/

namespace E9Patch
open Bytes Binary Fallible

/-- What a state has to say about which instructions are patched. -/
structure Tracked (B : Binary) : Prop where
  apart : ∀ j k, j < k → k < B.count → (B.Is k).offset + (B.Is k).size ≤ (B.Is j).offset
  known : ∀ k < B.count, ∀ i < (B.Is k).size, (B.STATE k i).kind ≠ .UNKNOWN
  whole : ∀ k < B.count, (B.Is k).is_patched = false → ∀ i < (B.Is k).size,
    (B.STATE k i).kind = .INSTRUCTION ∨ (B.STATE k i).kind = .QUEUED
  patched : ∀ k < B.count, (B.Is k).is_patched = true → ∃ i < (B.Is k).size, Dead (B.STATE k i)
  uniform : ∀ k < B.count, ∀ i < (B.Is k).size, ∀ j < (B.Is k).size,
    B.STATE k i = STATE_QUEUED → B.STATE k j = STATE_QUEUED

/-- Some byte of the instruction is in the queue. -/
def Queued (B : Binary) (k : Nat) : Prop := ∃ i < (B.Is k).size, B.STATE k i = STATE_QUEUED

/-- The cell is as before, or locked; bytes in the queue are not locked. -/
def Spared (c d : Cell) : Prop := d = c ∨ (c.2 ≠ STATE_QUEUED ∧ d = (c.1, c.2.lock))

/-- The instructions that are patched now, and were not before, are in `S`, and those that were in the
queue as well are in `R`. What is not patched is spared. -/
structure Tracks (S R : Nat → Prop) (B B' : Binary) : Prop where
  tracked : Tracked B'
  count : B'.count = B.count
  place : ∀ k, (B'.Is k).offset = (B.Is k).offset ∧ (B'.Is k).size = (B.Is k).size
  stays : ∀ k < B.count, (B.Is k).is_patched = true → (B'.Is k).is_patched = true
  evicted : ∀ k < B.count, (B.Is k).is_evicted = true → (B'.Is k).is_evicted = true
  only : ∀ k < B.count, (B'.Is k).is_patched = true → (B.Is k).is_patched = true ∨ S k
  queued : ∀ k < B.count, (B'.Is k).is_patched = true → Queued B k → R k
  spared : ∀ k < B.count, (B'.Is k).is_patched = false → ∀ i < (B.Is k).size,
    Spared (B.cell ((B.Is k).offset + i)) (B'.cell ((B.Is k).offset + i))
  unknown : ∀ q, (B.state q).kind = .UNKNOWN → Spared (B.cell q) (B'.cell q)
  known : ∀ q, (B'.state q).kind = .UNKNOWN → (B.state q).kind = .UNKNOWN

theorem Spared.refl (c : Cell) : Spared c c := Or.inl rfl

theorem Spared.trans {c d e : Cell} (h : Spared c d) (h' : Spared d e) : Spared c e := by
  rcases h with rfl | ⟨hq, rfl⟩
  · exact h'
  · refine Or.inr ⟨hq, ?_⟩
    rcases h' with rfl | ⟨-, rfl⟩ <;> rfl

theorem Spared.kind {c d : Cell} (h : Spared c d) : d.1 = c.1 ∧ d.2.kind = c.2.kind := by
  rcases h with rfl | ⟨-, rfl⟩ <;> exact ⟨rfl, rfl⟩

/-- A spared byte is in the queue exactly if it was. -/
theorem Spared.queued {c d : Cell} (h : Spared c d) : d.2 = STATE_QUEUED ↔ c.2 = STATE_QUEUED := by
  rcases h with rfl | ⟨hq, rfl⟩
  · rfl
  · refine ⟨fun hd => ?_, fun hc => absurd hc hq⟩
    have hlocked : c.2.lock.locked = STATE_QUEUED.locked := congrArg ByteState.locked hd
    cases hlocked

section
variable {S S' R R' : Nat → Prop} {B B' B'' : Binary}

theorem Tracks.place_state (h : Tracks S R B B') (k i : Nat) :
    B'.STATE k i = B'.state ((B.Is k).offset + i) := by rw [STATE, (h.place k).1]

/-- What is not patched is in the queue exactly if it was. -/
theorem Tracks.same_queue (h : Tracks S R B B') {k i : Nat} (hk : k < B.count)
    (hp : (B'.Is k).is_patched = false) (hi : i < (B.Is k).size) :
    B'.STATE k i = STATE_QUEUED ↔ B.STATE k i = STATE_QUEUED := by
  rw [h.place_state]
  exact (h.spared k hk hp i hi).queued

theorem Tracks.unpatched (h : Tracks S R B B') {k : Nat} (hk : k < B.count)
    (hp : (B'.Is k).is_patched = false) : (B.Is k).is_patched = false := by
  by_contra hne
  rw [h.stays k hk (by simpa using hne)] at hp
  cases hp

theorem Tracks.trans (h : Tracks S R B B') (h' : Tracks S R B' B'') : Tracks S R B B'' := by
  refine ⟨h'.tracked, h'.count.trans h.count, fun k => ?_, fun k hk hp => ?_, fun k hk hev => ?_,
    fun k hk hp => ?_, fun k hk hp hq => ?_, fun k hk hp i hi => ?_, fun q hq => ?_,
    fun q hq => h.known q (h'.known q hq)⟩
  · exact ⟨(h'.place k).1.trans (h.place k).1, (h'.place k).2.trans (h.place k).2⟩
  · exact h'.stays k (h.count ▸ hk) (h.stays k hk hp)
  · exact h'.evicted k (h.count ▸ hk) (h.evicted k hk hev)
  · rcases h'.only k (h.count ▸ hk) hp with hp | hS
    · exact h.only k hk hp
    · exact Or.inr hS
  · cases hp' : (B'.Is k).is_patched with
    | true => exact h.queued k hk hp' hq
    | false =>
        obtain ⟨i, hi, hi'⟩ := hq
        exact h'.queued k (h.count ▸ hk) hp ⟨i, by rwa [(h.place k).2], (h.same_queue hk hp' hi).mpr hi'⟩
  · have h2 := h'.spared k (h.count ▸ hk) hp i (by rwa [(h.place k).2])
    rw [(h.place k).1] at h2
    exact (h.spared k hk (h'.unpatched (h.count ▸ hk) hp) i hi).trans h2
  · have h1 := h.unknown q hq
    exact h1.trans (h'.unknown q (h1.kind.2.trans hq))

theorem Tracks.mono (h : Tracks S R B B') (hS : ∀ k, S k → S' k) (hR : ∀ k, R k → R' k) :
    Tracks S' R' B B' :=
  ⟨h.tracked, h.count, h.place, h.stays, h.evicted, fun k hk hp => (h.only k hk hp).imp id (hS k),
    fun k hk hp hq => hR k (h.queued k hk hp hq), h.spared, h.unknown, h.known⟩

/-- A patched instruction is not in the queue. -/
theorem Tracked.not_queued (ht : Tracked B) {k : Nat} (hk : k < B.count)
    (hp : (B.Is k).is_patched = true) : ¬Queued B k := by
  rintro ⟨i, hi, hq⟩
  obtain ⟨j, hj, hd⟩ := ht.patched k hk hp
  exact hd.2.2 (ht.uniform k hk i hi j hj hq)

/-- Nor is one of which some byte is not. -/
theorem Tracked.not_queued_of (ht : Tracked B) {k j : Nat} (hk : k < B.count) (hj : j < (B.Is k).size)
    (hn : B.STATE k j ≠ STATE_QUEUED) : ¬Queued B k := by
  rintro ⟨i, hi, hq⟩
  exact hn (ht.uniform k hk i hi j hj hq)

/-- What was not in the queue is not. -/
theorem Tracks.not_queued (h : Tracks S R B B') {k : Nat} (hk : k < B.count) (hq : ¬Queued B k) :
    ¬Queued B' k := by
  intro hq'
  cases hp : (B'.Is k).is_patched with
  | true => exact h.tracked.not_queued (h.count ▸ hk) hp hq'
  | false =>
      obtain ⟨i, hi, hi'⟩ := hq'
      rw [(h.place k).2] at hi
      exact hq ⟨i, hi, (h.same_queue hk hp hi).mp hi'⟩

/-! ### Single operations -/

/-- Cells, and what counts of the instructions, are as before. -/
theorem Tracked.same (ht : Tracked B) (hc : B'.count = B.count)
    (hI : ∀ k, (B'.Is k).offset = (B.Is k).offset ∧ (B'.Is k).size = (B.Is k).size ∧
      (B'.Is k).is_patched = (B.Is k).is_patched ∧ (B'.Is k).is_evicted = (B.Is k).is_evicted)
    (hcell : ∀ q, B'.cell q = B.cell q) : Tracks S R B B' := by
  have hstate : ∀ k i, B'.STATE k i = B.STATE k i := fun k i => by
    rw [STATE, STATE, (hI k).1]
    exact congrArg Prod.snd (hcell _)
  refine ⟨⟨fun j k hjk hk => ?_, fun k hk i hi => ?_, fun k hk hp i hi => ?_, fun k hk hp => ?_,
    fun k hk i hi j hj hq => ?_⟩, hc, fun k => ⟨(hI k).1, (hI k).2.1⟩, fun k _ hp => ?_, fun k _ hev => ?_,
    fun k _ hp => ?_, fun k hk hp hq => ?_, fun k _ _ i _ => ?_, fun q _ => ?_, fun q hq => ?_⟩
  · rw [(hI k).1, (hI k).2.1, (hI j).1]
    exact ht.apart j k hjk (hc ▸ hk)
  · rw [hstate]
    exact ht.known k (hc ▸ hk) i ((hI k).2.1 ▸ hi)
  · rw [hstate]
    exact ht.whole k (hc ▸ hk) ((hI k).2.2.1 ▸ hp) i ((hI k).2.1 ▸ hi)
  · obtain ⟨i, hi, hd⟩ := ht.patched k (hc ▸ hk) ((hI k).2.2.1 ▸ hp)
    exact ⟨i, by rwa [(hI k).2.1], by rwa [hstate]⟩
  · rw [hstate] at hq ⊢
    exact ht.uniform k (hc ▸ hk) i ((hI k).2.1 ▸ hi) j ((hI k).2.1 ▸ hj) hq
  · rwa [(hI k).2.2.1]
  · rwa [(hI k).2.2.2]
  · rw [(hI k).2.2.1] at hp
    exact Or.inl hp
  · rw [(hI k).2.2.1] at hp
    exact absurd hq (ht.not_queued hk hp)
  · rw [hcell]
    exact .refl _
  · rw [hcell]
    exact .refl _
  · rwa [← cell_snd, hcell] at hq

theorem Tracked.unchanged (ht : Tracked B) (h : Unchanged B B') : Tracks S R B B' := by
  obtain ⟨t, rfl, -⟩ := h
  exact ht.same rfl (fun k => ⟨rfl, rfl, rfl, rfl⟩) fun q => rfl

end

/-! ### Writing -/

/-- What writing for a patch does to a byte, which may be inside of the patched instruction. -/
def Written (inside : Prop) (c d : Cell) : Prop :=
  Spared c d ∨ ((inside ∨ c.2.kind = .FREE) ∧ (d.2.kind = .PATCHED ∨ d.2.kind = .FREE))

def Binary.Inside (B : Binary) (I q : Nat) : Prop :=
  (B.Is I).offset ≤ q ∧ q < (B.Is I).offset + (B.Is I).size

instance (B : Binary) (I q : Nat) : Decidable (B.Inside I q) := inferInstanceAs (Decidable (_ ∧ _))

/-- Writing for a patch of `I`. -/
structure Writes (I : Nat) (B B' : Binary) : Prop where
  rewrites : Rewrites B B'
  cells : ∀ q, Written (B.Inside I q) (B.cell q) (B'.cell q)

theorem Written.trans {inside : Prop} {c d e : Cell} (h : Written inside c d) (h' : Written inside d e) :
    Written inside c e := by
  rcases h with hs | ⟨hin, hd⟩
  · rcases h' with hs' | ⟨hin', he⟩
    · exact Or.inl (hs.trans hs')
    · rw [hs.kind.2] at hin'
      exact Or.inr ⟨hin', he⟩
  · refine Or.inr ⟨hin, ?_⟩
    rcases h' with hs' | ⟨-, he⟩
    · rwa [hs'.kind.2]
    · exact he

theorem Writes.trans {I : Nat} {B B' B'' : Binary} (h : Writes I B B') (h' : Writes I B' B'') :
    Writes I B B'' := by
  refine ⟨h.rewrites.trans h'.rewrites, fun q => (h.cells q).trans ?_⟩
  have := h'.cells q
  rwa [Inside, h.rewrites.Is] at this

theorem Writes.of_spared {I : Nat} {B B' : Binary} (hr : Rewrites B B')
    (hs : ∀ q, Spared (B.cell q) (B'.cell q)) : Writes I B B' := ⟨hr, fun q => Or.inl (hs q)⟩

/-- The write of a byte of the instruction itself. -/
theorem write_writes {B : Binary} {I i : Nat} (b : UInt8) (hi : i < (B.Is I).size) :
    Writes I B (B.write ((B.Is I).offset + i) b) := by
  refine ⟨rewrites_write _ _ _, fun q => ?_⟩
  rw [cell_write]
  split
  · rename_i hq
    exact Or.inr ⟨Or.inl ⟨by omega, by omega⟩, Or.inl rfl⟩
  · exact Or.inl (.refl _)

theorem patchUnused_writes {B B' : Binary} {I offset : Nat} (h : B.patchUnused I offset = .ok B') :
    Writes I B B' := by
  obtain ⟨-, hr, hc⟩ := patchUnused_spec h
  refine ⟨hr, fun q => ?_⟩
  rw [hc q]
  split
  · unfold freed
    split
    · exact Or.inr ⟨Or.inl ⟨by omega, by omega⟩, Or.inr rfl⟩
    · exact Or.inl (.refl _)
  · exact Or.inl (.refl _)

theorem RelByte.written {inside : Prop} {b : UInt8} {c d : Cell} (h : RelByte inside b c d) :
    Written inside c d := by
  rcases h with ⟨hin, -, rfl⟩ | ⟨-, hf, rfl⟩ | ⟨-, hq, -, rfl⟩
  · exact Or.inr ⟨Or.inl hin, Or.inl rfl⟩
  · refine Or.inr ⟨Or.inr ?_, Or.inl rfl⟩
    rw [hf]
    rfl
  · exact Or.inl (Or.inr ⟨hq, rfl⟩)

theorem Written.mono {p p' : Prop} {c d : Cell} (h : Written p c d) (hp : p → p') : Written p' c d :=
  h.imp id fun h => ⟨h.1.imp hp id, h.2⟩

theorem JumpWritten.writes {B B' : Binary} {I offset : Nat} {entry : Int}
    (h : JumpWritten B B' I offset entry) : Writes I B B' := by
  refine ⟨h.rewrites, fun q => ?_⟩
  by_cases hq : (B.Is I).offset + offset ≤ q ∧ q < (B.Is I).offset + offset + 5
  · by_cases h0 : q = (B.Is I).offset + offset
    · have := h.inside
      rw [h0, h.opcode]
      exact Or.inr ⟨Or.inl ⟨by omega, by omega⟩, Or.inl rfl⟩
    · have := (h.rel32 (q - ((B.Is I).offset + (offset + 1))) (by omega)).written
      rw [show (B.Is I).offset + (offset + 1) + (q - ((B.Is I).offset + (offset + 1))) = q
        from by omega] at this
      exact this.mono fun hin => ⟨by omega, by omega⟩
  · rw [h.other q hq]
    exact Or.inl (.refl _)

theorem patchJumpPrefix_writes {B B' : Binary} {I pre : Nat} (h : B.patchJumpPrefix I pre = .ok B') :
    Writes I B B' := by
  obtain ⟨-, hsize, hr, hl, hother⟩ := patchJumpPrefix_spec h
  refine ⟨hr, fun q => ?_⟩
  by_cases hq : (B.Is I).offset ≤ q ∧ q < (B.Is I).offset + pre
  · have hc := (hl (q - (B.Is I).offset) (by omega)).2
    rw [show (B.Is I).offset + (q - (B.Is I).offset) = q from by omega] at hc
    rw [hc]
    exact Or.inr ⟨Or.inl ⟨by omega, by omega⟩, Or.inl rfl⟩
  · rw [hother q hq]
    exact Or.inl (.refl _)

theorem patchShortJump_writes {B B' : Binary} {I : Nat} {addr : Int} (hsize : 2 ≤ (B.Is I).size)
    (h : B.patchShortJump I addr = .ok B') : Writes I B B' := by
  obtain ⟨-, -, -, -, rfl⟩ := patchShortJump_spec h
  have h0 := write_writes (B := B) (I := I) 0xEB (i := 0) (by omega)
  exact h0.trans (write_writes (B := B.write (B.Is I).offset 0xEB) _ (i := 1) (by exact hsize))

/-! ### Patches -/

theorem Tracked.at_most_one {B : Binary} (ht : Tracked B) {j k i : Nat} (hj : j < B.count) (hk : k < B.count)
    (hi : i < (B.Is k).size) (hin : B.Inside j ((B.Is k).offset + i)) : j = k := by
  obtain ⟨h1, h2⟩ := hin
  rcases Nat.lt_trichotomy j k with hlt | rfl | hgt
  · have := ht.apart j k hlt hk
    omega
  · rfl
  · have := ht.apart k j hgt hj
    omega

section
variable {S R : Nat → Prop} {B B₁ B' : Binary} {I : Nat} {tactic : Tactic} {A : Option Nat}

/-- A new patch of `I`, with the writing for it: `I` must have a byte closed and none in the queue by
then. -/
theorem Tracked.patches (ht : Tracked B) (hI : I < B.count) (hB₁ : B₁ = { B with allocator := B₁.allocator })
    (hw : Writes I (B₁.newPatch I tactic A).1 B') (hd : ∃ i < (B.Is I).size, Dead (B'.STATE I i))
    (hn : ∀ i < (B.Is I).size, B'.STATE I i ≠ STATE_QUEUED) (hS : S I) (hR : Queued B I → R I) :
    Tracks S R B B' := by
  have hBI : B₁.Is = B.Is := by rw [hB₁]
  have hIs : ∀ k, (B'.Is k).offset = (B.Is k).offset ∧ (B'.Is k).size = (B.Is k).size ∧
      (B'.Is k).is_patched = (if k = I then true else (B.Is k).is_patched) ∧
      ((B.Is k).is_evicted = true → (B'.Is k).is_evicted = true) := by
    intro k
    rw [hw.rewrites.Is, newPatch_Is, hBI]
    by_cases hk : k = I
    · rw [if_pos hk, if_pos hk, hk]
      exact ⟨rfl, rfl, rfl, fun hev => by simp [hev]⟩
    · rw [if_neg hk, if_neg hk]
      exact ⟨rfl, rfl, rfl, id⟩
  have hc : B'.count = B.count := by
    rw [hw.rewrites, hB₁]
    rfl
  have hcells : ∀ q, Written (B.Inside I q) (B.cell q) (B'.cell q) := by
    intro q
    have := hw.cells q
    rw [Inside, newPatch_Is, if_pos rfl, newPatch_cell, hBI] at this
    rw [hB₁] at this
    exact this
  have hstate : ∀ k i, B'.STATE k i = (B'.cell ((B.Is k).offset + i)).2 := fun k i => by
    rw [STATE, (hIs k).1, cell_snd]
  have hold : ∀ {k}, (B'.Is k).is_patched = false → k ≠ I ∧ (B.Is k).is_patched = false := by
    intro k hp
    rw [(hIs k).2.2.1] at hp
    split at hp
    · cases hp
    · exact ⟨‹_›, hp⟩
  -- what is not patched has no byte in `I`, and no byte that is free
  have hspared : ∀ k < B.count, (B'.Is k).is_patched = false → ∀ i < (B.Is k).size,
      Spared (B.cell ((B.Is k).offset + i)) (B'.cell ((B.Is k).offset + i)) := by
    intro k hk hp i hi
    obtain ⟨hkI, hkp⟩ := hold hp
    rcases hcells ((B.Is k).offset + i) with h | ⟨hin | hfree, -⟩
    · exact h
    · exact absurd (ht.at_most_one hI hk hi hin).symm hkI
    · have hkind := ht.whole k hk hkp i hi
      rw [show (B.STATE k i).kind = .FREE from hfree] at hkind
      exact absurd hkind (by decide)
  have hqueued : ∀ k < B.count, k ≠ I → ∀ i < (B.Is k).size, B'.STATE k i = STATE_QUEUED →
      B.STATE k i = STATE_QUEUED := by
    intro k hk hkI i hi hq
    rw [hstate] at hq
    rcases hcells ((B.Is k).offset + i) with h | ⟨-, hd | hd⟩
    · exact h.queued.mp hq
    all_goals
      rw [hq] at hd
      cases hd
  refine ⟨⟨fun j k hjk hk => ?_, fun k hk i hi => ?_, fun k hk hp i hi => ?_, fun k hk hp => ?_,
    fun k hk i hi j hj hq => ?_⟩, hc, fun k => ⟨(hIs k).1, (hIs k).2.1⟩, fun k _ hp => ?_,
    fun k _ => (hIs k).2.2.2, fun k _ hp => ?_, fun k hk hp hq => ?_, hspared, fun q hq => ?_,
    fun q hq => ?_⟩
  · rw [(hIs k).1, (hIs k).2.1, (hIs j).1]
    exact ht.apart j k hjk (hc ▸ hk)
  · rw [(hIs k).2.1] at hi
    rw [hstate]
    rcases hcells ((B.Is k).offset + i) with h | ⟨-, hd | hd⟩
    · rw [h.kind.2]
      exact ht.known k (hc ▸ hk) i hi
    · rw [hd]
      decide
    · rw [hd]
      decide
  · rw [(hIs k).2.1] at hi
    rw [hstate, (hspared k (hc ▸ hk) hp i hi).kind.2]
    exact ht.whole k (hc ▸ hk) (hold hp).2 i hi
  · rw [(hIs k).2.1]
    by_cases hk' : k = I
    · rw [hk']
      exact hd
    · rw [(hIs k).2.2.1, if_neg hk'] at hp
      obtain ⟨i, hi, hdead⟩ := ht.patched k (hc ▸ hk) hp
      refine ⟨i, hi, ?_⟩
      rw [hstate]
      rcases hcells ((B.Is k).offset + i) with (h | ⟨-, h⟩) | ⟨-, hd | hd⟩
      · rw [h]
        exact hdead
      · rw [h]
        exact dead_lock _
      · refine ⟨fun h => ?_, fun h => ?_, fun h => ?_⟩ <;> rw [h] at hd <;> cases hd
      · refine ⟨fun h => ?_, fun h => ?_, fun h => ?_⟩ <;> rw [h] at hd <;> cases hd
  · rw [(hIs k).2.1] at hi hj
    by_cases hkI : k = I
    · rw [hkI] at hi hq
      exact absurd hq (hn i hi)
    · have hall := ht.uniform k (hc ▸ hk) i hi j hj (hqueued k (hc ▸ hk) hkI i hi hq)
      have hp : (B'.Is k).is_patched = false := by
        rw [(hIs k).2.2.1, if_neg hkI]
        by_contra hne
        exact ht.not_queued (hc ▸ hk) (by simpa using hne) ⟨j, hj, hall⟩
      rw [hstate]
      exact (hspared k (hc ▸ hk) hp j hj).queued.mpr hall
  · rw [(hIs k).2.2.1, hp]
    split <;> rfl
  · rw [(hIs k).2.2.1] at hp
    split at hp
    · rename_i hk
      exact Or.inr (hk ▸ hS)
    · exact Or.inl hp
  · rw [(hIs k).2.2.1] at hp
    split at hp
    · rename_i hkI
      subst hkI
      exact hR hq
    · exact absurd hq (ht.not_queued hk hp)
  · rcases hcells q with h | ⟨⟨h1, h2⟩ | hfree, -⟩
    · exact h
    · have hkind := ht.known I hI (q - (B.Is I).offset) (by omega)
      rw [STATE, show (B.Is I).offset + (q - (B.Is I).offset) = q from by omega] at hkind
      exact absurd hq hkind
    · rw [show (B.state q).kind = .FREE from hfree] at hq
      cases hq
  · have hq' : (B'.cell q).2.kind = .UNKNOWN := hq
    rcases hcells q with h | ⟨-, hd | hd⟩
    · rw [h.kind.2] at hq'
      exact hq'
    · rw [hq'] at hd
      cases hd
    · rw [hq'] at hd
      cases hd

/-- A patch of an instruction with a byte that is not in the queue, and was written to. -/
theorem Tracked.jumps (ht : Tracked B) (hI : I < B.count) (hB₁ : B₁ = { B with allocator := B₁.allocator })
    (hw : Writes I (B₁.newPatch I tactic A).1 B') {i : Nat} (hi : i < (B.Is I).size)
    (hn : B.STATE I i ≠ STATE_QUEUED) (hd : Dead (B'.STATE I i)) (hS : S I) : Tracks S R B B' := by
  have hnot := ht.not_queued_of hI hi hn
  refine ht.patches hI hB₁ hw ⟨i, hi, hd⟩ (fun j hj hq => ?_) hS fun hq => absurd hq hnot
  have hcell := hw.cells ((B.Is I).offset + j)
  have hBI : (B'.Is I).offset = (B.Is I).offset := by rw [hw.rewrites.Is, newPatch_Is, if_pos rfl, hB₁]
  have hq' : (B'.cell ((B.Is I).offset + j)).2 = STATE_QUEUED := by
    rw [cell_snd, ← hBI]
    exact hq
  rcases hcell with h | ⟨-, hd | hd⟩
  · have hold := h.queued.mp hq'
    rw [newPatch_cell, cell_snd] at hold
    rw [hB₁] at hold
    exact hnot ⟨j, hj, hold⟩
  · rw [hq'] at hd
    cases hd
  · rw [hq'] at hd
    cases hd

end

/-! ### Jumps in place of an instruction -/

/-- A tactic that fails changes nothing, and one that succeeds patches `I` only, which is evicted then if
the trampoline is an evictee's. -/
def Strikes (I : Nat) (T : Trampoline) (B : Binary) (r : Binary × List Patch) : Prop :=
  (r.2 = [] ∧ Unchanged B r.1) ∨ (r.2 ≠ [] ∧ Tracks (· = I) (fun _ => False) B r.1 ∧
    (T = evicteeTrampoline → (r.1.Is I).is_evicted = true))

section
variable {B : Binary} {I : Nat} {T : Trampoline} {tactic : Tactic} {r : Binary × List Patch}

theorem canPatch_not_queued {k : Nat} (h : B.canPatch k = true) : B.STATE k 0 ≠ STATE_QUEUED :=
  (not_protected_of_unused h).2

theorem Redirected.strikes {B₁ E : Binary} {A : Nat} {P Q : Patch} {Ps : List Patch} (hw : WellFormed B)
    (ht : Tracked B) (hI : I < B.count) (hcan : B.canPatch I = true) (ha : Allocated B B₁ A T (some I))
    (hwr : Writes I (B₁.newPatch I tactic (some A)).1 E) (hred : Redirected I T tactic B E P) :
    Strikes I T B (E, Q :: Ps) := by
  have hsize := (hw.size I hI).1
  refine Or.inr ⟨by simp, ?_, fun hT => ?_⟩
  · refine ht.jumps hI ha.binary hwr (i := 0) hsize (canPatch_not_queued hcan) ?_ rfl
    exact hred.closed.2 0 (by rwa [(hred.progress.instrs I).fields.2.1])
  · rw [hwr.rewrites.Is, newPatch_Is, if_pos rfl]
    simp [ha.T, hT]

theorem tactic_B1_strikes (hw : WellFormed B) (ht : Tracked B) (hI : I < B.count)
    (h : tactic_B1 I T tactic B = .ok r) : Strikes I T B r := by
  rcases tactic_B1_spec hw hI h with hnil | ⟨P, hP, hred⟩
  · exact Or.inl hnil
  · unfold tactic_B1 at h
    split at h
    · cases h
      cases hP
    · rename_i hcond
      simp only [not_or, Bool.not_eq_true', Bool.not_eq_false] at hcond
      obtain ⟨o, ho, h⟩ := bind_ok.mp h
      cases o with
      | none =>
          cases h
          cases hP
      | some o =>
          obtain ⟨B₁, A⟩ := o
          obtain ⟨⟨D, Q⟩, hD, h⟩ := bind_ok.mp h
          obtain ⟨E, hE, h⟩ := bind_ok.mp h
          cases h
          obtain ⟨hD', rfl⟩ := applyJump_ok hD
          obtain ⟨ha, -⟩ := allocatePunnedJump_spec hw.allocates ho
          obtain ⟨A', hA', hwritten⟩ := patchJump_spec hD'
          exact hred.strikes hw ht hI hcond.2.2 ha (hwritten.writes.trans (patchUnused_writes hE))

theorem tactic_B2_strikes (hw : WellFormed B) (ht : Tracked B) (hI : I < B.count)
    (h : tactic_B2 I T tactic B = .ok r) : Strikes I T B r := by
  rcases tactic_B2_spec hw hI h with hnil | ⟨P, hP, hred⟩
  · exact Or.inl hnil
  · unfold tactic_B2 at h
    split at h
    · cases h
      cases hP
    · rename_i hcond
      simp only [not_or, Bool.not_eq_true', Bool.not_eq_false] at hcond
      obtain ⟨o, ho, h⟩ := bind_ok.mp h
      cases o with
      | none =>
          cases h
          cases hP
      | some o =>
          obtain ⟨B₁, A⟩ := o
          obtain ⟨⟨D, Q⟩, hD, h⟩ := bind_ok.mp h
          cases h
          obtain ⟨hD', rfl⟩ := applyJump_ok hD
          obtain ⟨ha, -⟩ := allocatePunnedJump_spec hw.allocates ho
          obtain ⟨A', hA', hwritten⟩ := patchJump_spec hD'
          exact hred.strikes hw ht hI hcond.2.2 ha hwritten.writes

theorem tactic_T1Loop_strikes {pres : List Nat} (hw : WellFormed B) (ht : Tracked B) (hI : I < B.count)
    (hcan : B.canPatch I = true) {P : Patch} (hP : r.2 = [P]) (hred : Redirected I T tactic B r.1 P)
    (h : tactic_T1Loop I T tactic B pres = .ok r) : Strikes I T B r := by
  induction pres with
  | nil =>
      cases h
      cases hP
  | cons pre pres ih =>
      unfold tactic_T1Loop at h
      split at h
      · cases h
        cases hP
      · obtain ⟨o, ho, h⟩ := bind_ok.mp h
        cases o with
        | none => exact ih h
        | some o =>
            obtain ⟨B₁, A⟩ := o
            obtain ⟨C, hC, h⟩ := bind_ok.mp h
            obtain ⟨D, hD, h⟩ := bind_ok.mp h
            cases h
            obtain ⟨ha, -⟩ := allocatePunnedJump_spec hw.allocates ho
            obtain ⟨A', hA', hwritten⟩ := patchJump_spec hD
            exact hred.strikes hw ht hI hcan ha ((patchJumpPrefix_writes hC).trans hwritten.writes)

theorem tactic_T1_strikes (hw : WellFormed B) (ht : Tracked B) (hI : I < B.count)
    (h : tactic_T1 I T tactic B = .ok r) : Strikes I T B r := by
  rcases tactic_T1_spec hw hI h with hnil | ⟨P, hP, hred⟩
  · exact Or.inl hnil
  · unfold tactic_T1 at h
    split at h
    · cases h
      cases hP
    · rename_i hcond
      simp only [not_or, Bool.not_eq_true', Bool.not_eq_false] at hcond
      exact tactic_T1Loop_strikes hw ht hI hcond.2.2 hP hred h

theorem Strikes.orTry {r' : Binary × List Patch} {f : Binary → Except Fault (Binary × List Patch)}
    (h : Strikes I T B r) (hr : orTry r f = .ok r')
    (hf : ∀ C, Unchanged B C → f C = .ok r' → Strikes I T C r') (ht : Tracked B) : Strikes I T B r' := by
  rcases h with ⟨hnil, hu⟩ | hs
  · simp only [Binary.orTry, hnil] at hr
    rcases hf r.1 hu hr with ⟨hnil', hu'⟩ | ⟨hne, hs, hev⟩
    · exact Or.inl ⟨hnil', hu.trans hu'⟩
    · exact Or.inr ⟨hne, (ht.unchanged hu).trans hs, hev⟩
  · unfold Binary.orTry at hr
    split at hr
    · rename_i hnil
      exact absurd hnil hs.1
    · cases hr
      exact Or.inr hs

theorem Tracked.of_unchanged {C : Binary} (ht : Tracked B) (hu : Unchanged B C) : Tracked C :=
  (ht.unchanged (S := fun _ => False) (R := fun _ => False) hu).tracked

theorem punned_strikes {r₁ : Binary × List Patch} (hw : WellFormed B) (ht : Tracked B) (hI : I < B.count)
    (h₁ : tactic_B2 I T tactic B = .ok r₁) (h : orTry r₁ (tactic_T1 I T tactic) = .ok r) :
    Strikes I T B r :=
  (tactic_B2_strikes hw ht hI h₁).orTry h (fun _ hu =>
    tactic_T1_strikes (hw.unchanged hu) (ht.of_unchanged hu) (by rwa [hu.progress.count])) ht

theorem evict_strikes (hw : WellFormed B) (ht : Tracked B) (hI : I < B.count)
    (h : evict I tactic T B = .ok r) : Strikes I T B r := by
  unfold evict at h
  obtain ⟨r₁, h₁, h⟩ := bind_ok.mp h
  obtain ⟨r₂, h₂, h⟩ := bind_ok.mp h
  refine ((tactic_B1_strikes hw ht hI h₁).orTry h₂ (fun _ hu => ?_) ht).orTry h (fun _ hu => ?_) ht
  · exact tactic_B2_strikes (hw.unchanged hu) (ht.of_unchanged hu) (by rwa [hu.progress.count])
  · exact tactic_T1_strikes (hw.unchanged hu) (ht.of_unchanged hu) (by rwa [hu.progress.count])

end

end E9Patch
