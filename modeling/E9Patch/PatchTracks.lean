import E9Patch.PatchTouches
import E9Patch.PatchRun

/-!
What `patch` touches: the instruction itself and those that it evicts, none of which was in the queue, or
else the batch of T0, whose trampoline then runs through all of its instructions.
-/

namespace E9Patch
open Bytes Binary Fallible

/-- What is patched now, and was not before, is evicted. -/
def Evicting (B B' : Binary) : Prop := Tracks (fun k => (B'.Is k).is_evicted = true) (fun _ => False) B B'

/-- What is patched now, and was not before, is evicted or `I`. -/
def Patching (I : Nat) (B B' : Binary) : Prop :=
  Tracks (fun k => k = I ∨ (B'.Is k).is_evicted = true) (fun _ => False) B B'

section
variable {B B' B'' : Binary} {I J : Nat} {S S' R : Nat → Prop}

/-- The flags of the evicted instructions stay. -/
theorem Evicting.trans (h : Evicting B B') (h' : Tracks S R B' B'') (hS : ∀ k, S k → S' k)
    (hev : ∀ k, (B''.Is k).is_evicted = true → S' k) : Tracks S' R B B'' := by
  have hf : ∀ k < B.count, (B'.Is k).is_evicted = true → S' k := fun k hk he =>
    hev k (h'.evicted k (h.count ▸ hk) he)
  have h1 : Tracks S' R B B' :=
    ⟨h.tracked, h.count, h.place, h.stays, h.evicted, fun k hk hp => (h.only k hk hp).imp id (hf k hk),
      fun k hk hp hq => absurd (h.queued k hk hp hq) id, h.spared, h.unknown, h.known⟩
  exact h1.trans (h'.mono hS fun _ => id)

theorem Tracks.of_evicted (h : Tracks (· = J) (fun _ => False) B B') (hJ : (B'.Is J).is_evicted = true) :
    Evicting B B' := h.mono (fun _ hk => hk ▸ hJ) fun _ => id

/-- An instruction that was patched before is patched once more. -/
theorem Tracks.of_patched (h : Tracks (· = J) R B B') (hJ : (B.Is J).is_patched = true) : Tracks S R B B' :=
  ⟨h.tracked, h.count, h.place, h.stays, h.evicted, fun k hk hp => by
    rcases h.only k hk hp with hp | rfl
    · exact Or.inl hp
    · exact Or.inl hJ, h.queued, h.spared, h.unknown, h.known⟩

theorem Tracked.setNoOptimize (ht : Tracked B) (J : Nat) (v : Bool) :
    Tracks S R B (B.setNoOptimize J v) := by
  refine ht.same rfl (fun k => ?_) fun q => rfl
  rw [setNoOptimize_Is]
  by_cases hk : k = J
  · rw [if_pos hk, hk]
    exact ⟨rfl, rfl, rfl, rfl⟩
  · rw [if_neg hk]
    exact ⟨rfl, rfl, rfl, rfl⟩

end

section
variable {B : Binary} {I J i : Nat} {T : Trampoline} {r : Binary × List Patch}

/-! ### T2 -/

theorem tactic_T2_tracks (hw : WellFormed B) (ht : Tracked B) (hI : I < B.count)
    (h : tactic_T2 I T B = .ok r) (hne : r.2 ≠ []) : Patching I B r.1 := by
  unfold tactic_T2 at h
  split at h
  · cases h
    exact absurd rfl hne
  · split at h
    · cases h
      exact absurd rfl hne
    · rename_i J hJ
      split at h
      · cases h
        exact absurd rfl hne
      · obtain ⟨Q₁, hQ₁, h⟩ := bind_ok.mp h
        obtain ⟨Q, hQ, h⟩ := bind_ok.mp h
        have hJc : J < B.count := (succ_some hw hJ).2.1
        rcases punned_strikes hw ht hJc hQ₁ hQ with ⟨hnil, -⟩ | ⟨hneQ, htQ, hevQ⟩
        · rw [hnil] at h
          cases h
          exact absurd hnil hne
        · have hempty : Q.2.isEmpty = false := by simpa using hneQ
          simp only [hempty, Bool.false_eq_true, if_false] at h
          obtain ⟨P₁, hP₁, h⟩ := bind_ok.mp h
          obtain ⟨P, hP, h⟩ := bind_ok.mp h
          have hwQ : WellFormed Q.1 := by
            rcases punned_spec hw hJc hQ₁ hQ with ⟨hnil, -⟩ | ⟨PQ, -, hred⟩
            · exact absurd hnil hneQ
            · exact hw.evicts hred.progress hred.evicts
          rcases punned_strikes hwQ htQ.tracked (by rwa [htQ.count]) hP₁ hP with
            ⟨hnil, -⟩ | ⟨hneP, htP, -⟩
          · rw [hnil] at h
            cases h
            exact absurd rfl hne
          · have hemptyP : P.2.isEmpty = false := by simpa using hneP
            simp only [hemptyP, Bool.false_eq_true, if_false] at h
            cases h
            exact (htQ.of_evicted (hevQ rfl)).trans htP (fun k => Or.inl) fun k => Or.inr

/-! ### T3 -/

/-- The jump that is placed in `J`, before `J` is evicted. -/
theorem applyJump_tracks {B₁ D : Binary} {A : Nat} {P : Patch} (ht : Tracked B) (hJ : J < B.count)
    (hs : unused (B.STATE J i) = true) (ha : Allocated B B₁ A T (some I))
    (h : B₁.applyJump J .T3 A i = .ok (D, P)) :
    i < (B.Is J).size ∧ Tracks (· = J) (fun _ => False) B D := by
  obtain ⟨hD, -⟩ := applyJump_ok h
  obtain ⟨A', -, hwritten⟩ := patchJump_spec hD
  rw [newPatch_I] at hwritten
  have hBI : ((B₁.newPatch J .T3 (some A)).1.Is J).size = (B.Is J).size ∧
      ((B₁.newPatch J .T3 (some A)).1.Is J).offset = (B.Is J).offset := by
    rw [newPatch_Is, if_pos rfl, ha.binary]
    exact ⟨rfl, rfl⟩
  have hi : i < (B.Is J).size := hBI.1 ▸ hwritten.inside
  refine ⟨hi, ht.jumps hJ ha.binary hwritten.writes hi (not_protected_of_unused hs).2 ?_ rfl⟩
  have hop := congrArg Prod.snd hwritten.opcode
  rw [cell_snd] at hop
  rw [STATE, hwritten.rewrites.Is, hop]
  exact dead_patched

theorem placeJump_tracks {backward : Bool} {r : Binary × Option Nat × List Patch} {A : Nat}
    (hw : WellFormed B) (ht : Tracked B) (hJ : J < B.count) (hT : T ≠ evicteeTrampoline)
    (hs : unused (B.STATE J i) = true) (h : placeJump I J i T backward B = .ok r)
    (hA : r.2.1 = some A) : Evicting B r.1 := by
  unfold placeJump at h
  obtain ⟨B₀, hB₀⟩ : ∃ B₀, B₀ = if backward = true then B.setNoOptimize J true else B := ⟨_, rfl⟩
  simp only [← hB₀] at h
  have ht₀ : Evicting B B₀ := by
    rw [hB₀]
    split
    · exact ht.setNoOptimize J true
    · exact ht.same rfl (fun k => ⟨rfl, rfl, rfl, rfl⟩) fun q => rfl
  have hw₀ : WellFormed B₀ := by
    rw [hB₀]
    split
    · exact ((Step.flag J true).ok hw).wellFormed
    · exact hw
  have hJ₀ : J < B₀.count := by rwa [ht₀.count]
  have hs₀ : B₀.STATE J i = B.STATE J i := by
    rw [STATE, (ht₀.place J).1, hB₀]
    split <;> rfl
  obtain ⟨o, ho, h⟩ := bind_ok.mp h
  cases o with
  | none =>
      cases h
      cases hA
  | some o =>
      obtain ⟨B₁, A₁⟩ := o
      obtain ⟨ha, hin⟩ := allocatePunnedJump_spec hw₀.allocates ho
      obtain ⟨⟨D, P⟩, hD, h⟩ := bind_ok.mp h
      have hs₁ : unused (B₀.STATE J i) = true := by rwa [hs₀]
      obtain ⟨hi, htD⟩ := applyJump_tracks ht₀.tracked hJ₀ hs₁ ha hD
      simp only at h
      split at h
      · rename_i hfree
        cases h
        -- a free byte is a byte of an instruction that was patched before
        have hp : (B₀.Is J).is_patched = true := by
          by_contra hne
          have hkind := ht₀.tracked.whole J hJ₀ (by simpa using hne) i hi
          rw [hs₀, hfree] at hkind
          exact absurd hkind (by decide)
        exact ht₀.trans (htD.of_patched (S := fun _ => False) hp) (fun k hk => hk.elim) fun k => id
      · obtain ⟨Q, hQ, h⟩ := bind_ok.mp h
        have hplaced := (applyJump_placed ha hin hT hD).1
        have hwD := hw₀.evicts hplaced.progress hplaced.evicts
        rcases evict_strikes hwD htD.tracked (by rwa [htD.count]) hQ with ⟨hnil, -⟩ | ⟨hne, htQ, hev⟩
        · rw [hnil] at h
          cases h
          cases hA
        · have hempty : Q.2.isEmpty = false := by simpa using hne
          simp only [hempty, Bool.false_eq_true, if_false] at h
          cases h
          exact ht₀.trans ((htD.trans htQ).of_evicted (hev rfl)) (fun k => id) fun k => id

theorem tactic_T3Bytes_tracks {is : List Nat} {r : Binary × Option (Nat × Int) × List Patch}
    {x : Nat × Int} (hw : WellFormed B) (ht : Tracked B) (hJ : J < B.count) (hT : T ≠ evicteeTrampoline)
    (h : tactic_T3Bytes I J T B is = .ok r) (hx : r.2.1 = some x) : Evicting B r.1 := by
  induction is generalizing B with
  | nil =>
      cases h
      cases hx
  | cons i is ih =>
      unfold tactic_T3Bytes at h
      simp only at h
      split at h
      · exact ih hw ht hJ h
      split at h
      · exact ih hw ht hJ h
      split at h
      · cases h
        cases hx
      split at h
      · exact ih hw ht hJ h
      split at h
      · rename_i hs
        obtain ⟨p, hp, h⟩ := bind_ok.mp h
        rcases placeJump_spec hw hJ hT hs hp with ⟨hnil, hu⟩ | ⟨A, hA, -⟩
        · simp only [hnil] at h
          have hE := ih (hw.unchanged hu) (ht.of_unchanged hu) (by rwa [hu.progress.count]) h
          exact (ht.unchanged hu).trans hE
        · simp only [hA] at h
          cases h
          exact placeJump_tracks hw ht hJ hT hs hp hA
      · exact ih hw ht hJ h

theorem tactic_T3Loop_tracks {fuel : Nat} {J : Option Nat} {r : Binary × Option (Nat × Int) × List Patch}
    {x : Nat × Int} (hw : WellFormed B) (ht : Tracked B) (hJ : ∀ j ∈ J, j < B.count)
    (hT : T ≠ evicteeTrampoline) (h : tactic_T3Loop I T fuel J B = .ok r) (hx : r.2.1 = some x) :
    Evicting B r.1 := by
  induction fuel generalizing J B with
  | zero =>
      cases h
      cases hx
  | succ fuel ih =>
      cases J with
      | none =>
          cases h
          cases hx
      | some J =>
          have hprev : ∀ {C}, WellFormed C → ∀ j ∈ C.prev J, j < C.count :=
            fun hC j hj => (prev_some hC hj).2
          unfold tactic_T3Loop at h
          split at h
          · exact ih hw ht (hprev hw) h
          rename_i hJI
          split at h
          · cases h
            cases hx
          split at h
          · cases h
            cases hx
          split at h
          · exact ih hw ht (hprev hw) h
          obtain ⟨p, hp, h⟩ := bind_ok.mp h
          rcases tactic_T3Bytes_spec hw (hJ J rfl) hJI hT hp with ⟨hnil, hu⟩ | ⟨A, J', i, hA, -, -⟩
          · simp only [hnil] at h
            have hw' := hw.unchanged hu
            exact (ht.unchanged hu).trans (ih hw' (ht.of_unchanged hu) (hprev hw') h)
          · simp only [hA] at h
            cases h
            exact tactic_T3Bytes_tracks hw ht (hJ J rfl) hT hp hA

/-- The last part of T3b, after `E` is reached. -/
theorem patchSingleByte_tracks {E : Binary} {A : Nat} {Ps : List Patch} (hE : Evicting B E)
    (hI : I < B.count) (hsize : (B.Is I).size = 1) (hK : ∀ K ∈ E.next I, ¬Queued B K ∧ K < B.count ∧ 0 < (B.Is K).size)
    (h : E.patchSingleByte I A Ps = .ok r) : Patching I B r.1 := by
  unfold patchSingleByte at h
  obtain ⟨_, hs, h⟩ := bind_ok.mp h
  rw [assert_ok] at hs
  obtain ⟨K, hnext, h⟩ := bind_ok.mp h
  rw [deref_ok] at hnext
  cases h
  obtain ⟨C, hC⟩ : ∃ C, C = (E.newPatch I .T3 (some A)).1 := ⟨_, rfl⟩
  obtain ⟨D, hD⟩ : ∃ D, D = C.write (C.Is I).offset 0xEB := ⟨_, rfl⟩
  rw [← hC, ← hD] at hnext
  simp only [← hC, ← hD]
  have hCI : ∀ k, (C.Is k).offset = (E.Is k).offset ∧ (C.Is k).size = (E.Is k).size := by
    intro k
    rw [hC, newPatch_Is]
    by_cases hk : k = I
    · rw [if_pos hk, hk]
      exact ⟨rfl, rfl⟩
    · rw [if_neg hk]
      exact ⟨rfl, rfl⟩
  have hIs : D.Is = C.Is := by rw [hD]; rfl
  have hsizeE : (E.Is I).size = 1 := by rw [(hE.place I).2, hsize]
  have hoff : (D.Is K).offset = (E.Is K).offset := by rw [hIs, (hCI K).1]
  have hnextE : E.next I = some K := by
    rw [← hnext]
    cases I with
    | zero => rfl
    | succ I => simp only [Binary.next, Binary.instrAt, hIs, (hCI I).1]
  obtain ⟨hqK, hKc, hKsize⟩ := hK K hnextE
  -- the byte that is locked is not in the queue
  have hqE : E.state (E.Is K).offset ≠ STATE_QUEUED := fun hq =>
    hE.not_queued hKc hqK ⟨0, by rwa [(hE.place K).2], hq⟩
  have hlock : Writes I D (D.setState (D.Is K).offset (D.STATE K 0).lock) := by
    refine .of_spared (rewrites_setState _ _ _) fun q => ?_
    rw [cell_setState]
    split
    · rename_i hq
      refine Or.inr ⟨?_, by rw [hq]; rfl⟩
      rw [hq, hoff, hD, cell_write]
      split
      · decide
      · rw [hC]
        exact hqE
    · exact .refl _
  have hwrite : Writes I C D := by
    rw [hD]
    exact write_writes (i := 0) 0xEB (by rw [(hCI I).2, hsizeE]; decide)
  have hwr : Writes I (E.newPatch I .T3 (some A)).1 (D.setState (D.Is K).offset (D.STATE K 0).lock) := by
    rw [← hC]
    exact hwrite.trans hlock
  have hdead : Dead ((D.setState (D.Is K).offset (D.STATE K 0).lock).STATE I 0) := by
    have hDI : D.state (D.Is I).offset = STATE_PATCHED := by
      rw [hIs, hD, ← cell_snd, cell_write, if_pos rfl]
    have he := lock_evolves D (D.Is K).offset (D.Is I).offset
    exact he.dead (by rw [cell_snd, hDI]; exact dead_patched)
  have hsE : E.STATE I 0 ≠ STATE_QUEUED := by
    rw [← hC] at hs
    have hs' : E.STATE I 0 = STATE_INSTRUCTION := by
      rw [← hs, STATE, STATE, (hCI I).1, hC]
      rfl
    rw [hs']
    decide
  refine hE.trans (hE.tracked.jumps (S := (· = I)) (by rwa [hE.count]) rfl hwr (i := 0)
    (by omega) hsE hdead rfl) (fun k => Or.inl) fun k => Or.inr

theorem tactic_T3b_tracks (hw : WellFormed B) (ht : Tracked B) (hI : I < B.count)
    (hT : T ≠ evicteeTrampoline) (h : tactic_T3b I T B = .ok r) (hne : r.2 ≠ []) : Patching I B r.1 := by
  unfold tactic_T3b at h
  split at h
  · cases h
    exact absurd rfl hne
  rename_i hcond
  rw [not_or, not_not] at hcond
  split at h
  · cases h
    exact absurd rfl hne
  rename_i K hK
  split at h
  · cases h
    exact absurd rfl hne
  rename_i hcan
  simp only [Bool.not_eq_true', Bool.not_eq_false] at hcan
  simp only at h
  split at h
  · cases h
    exact absurd rfl hne
  split at h
  · cases h
    exact absurd rfl hne
  rename_i J hJ
  split at h
  · cases h
    exact absurd rfl hne
  split at h
  · rename_i hs
    obtain ⟨p, hp, h⟩ := bind_ok.mp h
    have hJc : J < B.count := by
      split at hJ
      · exact skipForward_lt hw (fun j hj => by cases hj; exact (succ_some hw hK).2.1) hJ
      · exact skipBackward_lt hw (fun j hj => (prev_some hw hj).2) hJ
    rcases placeJump_spec hw hJc hT hs hp with ⟨hnil, hu⟩ | ⟨A, hA, hplaced⟩
    · simp only [hnil] at h
      cases h
      exact absurd rfl hne
    · simp only [hA] at h
      obtain ⟨hIK, hKc, -⟩ := succ_some hw hK
      refine patchSingleByte_tracks (placeJump_tracks hw ht hJc hT hs hp hA) hI hcond.1 (fun K' hK' => ?_) h
      have hwE := hw.evicts hplaced.progress hplaced.evicts
      obtain rfl : K' = K := by
        have := (next_some hwE hK').1
        omega
      exact ⟨ht.not_queued_of hKc (hw.size _ hKc).1 (canPatch_not_queued hcan), hKc, (hw.size _ hKc).1⟩
  · cases h
    exact absurd rfl hne

theorem tactic_T3_tracks (hw : WellFormed B) (ht : Tracked B) (hI : I < B.count)
    (hT : T ≠ evicteeTrampoline) (h : tactic_T3 I T B = .ok r) (hne : r.2 ≠ []) : Patching I B r.1 := by
  unfold tactic_T3 at h
  split at h
  · exact tactic_T3b_tracks hw ht hI hT h hne
  rename_i hsize1
  split at h
  · cases h
    exact absurd rfl hne
  rename_i hcond
  simp only [not_or, Bool.not_eq_true', Bool.not_eq_false] at hcond
  obtain ⟨p, hp, h⟩ := bind_ok.mp h
  have hstart : ∀ j ∈ some (B.furthest I I), j < B.count := fun j hj => by
    obtain rfl : B.furthest I I = j := by simpa using hj
    exact Nat.lt_of_le_of_lt (furthest_le B I I) hI
  rcases tactic_T3Loop_spec hw hstart hT hp with ⟨hnil, -⟩ | ⟨A, J, i, hA, -, hplaced⟩
  · simp only [hnil] at h
    cases h
    exact absurd rfl hne
  · have hE := tactic_T3Loop_tracks hw ht hstart hT hp hA
    simp only [hA] at h
    obtain ⟨F, hF, h⟩ := bind_ok.mp h
    obtain ⟨G, hG, h⟩ := bind_ok.mp h
    cases h
    have hsize := (hw.size I hI).1
    have hsize' : ((p.1.newPatch I .T3 (some A)).1.Is I).size = (B.Is I).size := by
      rw [newPatch_Is, if_pos rfl]
      exact (hE.place I).2
    have hwr := (patchShortJump_writes (by omega) hF).trans (patchUnused_writes hG)
    have hnot : p.1.STATE I 0 ≠ STATE_QUEUED := fun hq =>
      hE.not_queued hI (ht.not_queued_of hI hsize (canPatch_not_queued hcond.2.2))
        ⟨0, by rwa [(hE.place I).2], hq⟩
    have hdead := protected_dead (shortJump_bytes hF hG).2.1
    exact hE.trans (hE.tracked.jumps (S := (· = I)) (by rwa [hE.count]) rfl hwr (i := 0)
      (by rwa [(hE.place I).2]) hnot hdead rfl) (fun k => Or.inl) fun k => Or.inr

/-! ### B0 -/

theorem tactic_B0_tracks (hw : WellFormed B) (ht : Tracked B) (hI : I < B.count)
    (h : tactic_B0 I T B = .ok r) (hne : r.2 ≠ []) : Patching I B r.1 := by
  unfold tactic_B0 at h
  split at h
  · cases h
    exact absurd rfl hne
  obtain ⟨o, ho, h⟩ := bind_ok.mp h
  cases o with
  | none =>
      cases h
      exact absurd rfl hne
  | some o =>
      obtain ⟨B₁, A⟩ := o
      obtain ⟨C, hC, h⟩ := bind_ok.mp h
      obtain ⟨D, hD, h⟩ := bind_ok.mp h
      cases h
      obtain ⟨ha, -⟩ := allocateTrap_spec hw.allocates ho
      obtain ⟨_, hs, hC⟩ := bind_ok.mp hC
      rw [assert_ok] at hs
      cases hC
      have hBI : B₁.Is = B.Is := by rw [ha.binary]
      have hPI : ((B₁.newPatch I .B0 (some A)).1.Is I).offset = (B.Is I).offset ∧
          ((B₁.newPatch I .B0 (some A)).1.Is I).size = (B.Is I).size := by
        rw [newPatch_Is, if_pos rfl, hBI]
        exact ⟨rfl, rfl⟩
      have hsize := (hw.size I hI).1
      have hwr := (write_writes (B := (B₁.newPatch I .B0 (some A)).1) (I := I) 0x27 (i := 0)
        (by rw [hPI.2]; exact hsize)).trans (patchUnused_writes hD)
      have hnot : B.STATE I 0 ≠ STATE_QUEUED := by
        have hold : (B₁.newPatch I .B0 (some A)).1.STATE I 0 = B.STATE I 0 := by
          rw [STATE, STATE, hPI.1, ha.binary]
          rfl
        rw [← hold]
        exact (not_protected_of_unused hs).2
      have hdead : Dead (D.STATE I 0) := by
        have hrD := (patchUnused_spec hD).2.1
        have hstep := patchUnused_evolves hD ((B₁.newPatch I .B0 (some A)).1.Is I).offset
        have hDI : (D.Is I).offset = ((B₁.newPatch I .B0 (some A)).1.Is I).offset := by
          rw [hrD.Is]
          rfl
        rw [STATE, hDI]
        refine hstep.dead ?_
        rw [cell_write, if_pos rfl]
        exact dead_patched
      exact ht.jumps hI ha.binary hwr (i := 0) hsize hnot hdead (Or.inl rfl)

/-! ### T0 -/

theorem freeInstr_tracks {C : Binary} {K : Nat} {S : Nat → Prop} (hw : WellFormed B) (ht : Tracked B)
    (hK : K < B.count) (hC : (B.newPatch K .T0 none).1.patchUnused K 0 = .ok C) (hS : S K) :
    Tracks S S B C := by
  obtain ⟨-, hr, hc⟩ := patchUnused_spec hC
  have hoff : ((B.newPatch K .T0 none).1.Is K).offset = (B.Is K).offset ∧
      ((B.newPatch K .T0 none).1.Is K).size = (B.Is K).size := by
    rw [newPatch_Is, if_pos rfl]
    exact ⟨rfl, rfl⟩
  have hdead : ∀ i < (B.Is K).size, Dead (C.STATE K i) := by
    intro i hi
    rw [STATE, hr.Is, hoff.1, ← cell_snd, hc, hoff.1, hoff.2, if_pos (by omega)]
    exact freed_dead (hw.known K hK i hi)
  exact ht.patches hK rfl (patchUnused_writes hC) ⟨0, (hw.size K hK).1, hdead 0 (hw.size K hK).1⟩
    (fun i hi hq => (hdead i hi).2.2 hq) hS fun _ => hS

theorem freeBatch_tracks {fuel : Nat} {K : Option Nat} {Ps : List Patch} {S : Nat → Prop} (hw : WellFormed B)
    (ht : Tracked B) (hK : ∀ k ∈ K, k < B.count)
    (hev : ∀ k₀ ∈ K, ∀ k, k₀ ≤ k → k ≤ J → (B.Is k).is_evicted = false)
    (hS : ∀ k₀ ∈ K, ∀ k, k₀ ≤ k → k ≤ J → S k) (h : freeBatch J fuel K Ps B = .ok r) :
    Tracks S S B r.1 := by
  have hself : Tracks S S B B := ht.same rfl (fun k => ⟨rfl, rfl, rfl, rfl⟩) fun q => rfl
  induction fuel generalizing B K Ps with
  | zero =>
      cases h
      exact hself
  | succ fuel ih =>
      cases K with
      | none =>
          cases h
          exact hself
      | some K =>
          unfold freeBatch at h
          split at h
          · cases h
            exact hself
          · rename_i haddr
            obtain ⟨C, hC, h⟩ := bind_ok.mp h
            have hKJ : K ≤ J := by
              by_contra hlt
              exact haddr (hw.addr_lt (Nat.lt_of_not_le hlt) (hK K rfl))
            obtain ⟨hp, hflags, -⟩ :=
              freeInstr_spec hw (hK K rfl) (hev K rfl K (Nat.le_refl _) hKJ) hC
            have hwC := hw.evicts hp (.of_flags fun k hk => by rwa [hflags] at hk)
            have htC := freeInstr_tracks hw ht (hK K rfl) hC (hS K rfl K (Nat.le_refl _) hKJ)
            have hpred : ∀ k ∈ C.pred K, k = K + 1 ∧ k < C.count := fun k hk => pred_some hwC hk
            refine htC.trans (ih hwC htC.tracked (fun k hk => (hpred k hk).2) (fun k₀ hk₀ k hle hkJ => ?_)
              (fun k₀ hk₀ k hle hkJ => ?_) h (htC.tracked.same rfl (fun k => ⟨rfl, rfl, rfl, rfl⟩) fun q => rfl))
            · rw [hflags]
              exact hev K rfl k (by rw [(hpred k₀ hk₀).1] at hle; omega) hkJ
            · exact hS K rfl k (by rw [(hpred k₀ hk₀).1] at hle; omega) hkJ

/-- A live allocation for a batch reaches from its first to its last instruction, with `k` in between. -/
def Batched (B : Binary) (k : Nat) : Prop :=
  ∃ A J L, Live B.allocator A ∧ (B.alloc A).I = some J ∧ (B.alloc A).T = some (.batch (B.Is L).addr) ∧
    L ≤ k ∧ k ≤ J ∧ J < B.count

theorem tactic_T0_tracks (hw : WellFormed B) (ht : Tracked B) (hI : I < B.count)
    (h : tactic_T0 I T B = .ok r) (hne : r.2 ≠ []) : B.options.option_tactic_T0 = true ∧
      ∃ R, Tracks R R B r.1 ∧ ∀ k, R k → Batched r.1 k := by
  unfold tactic_T0 at h
  split at h
  · cases h
    exact absurd rfl hne
  rename_i hcond
  simp only [not_or, Bool.not_eq_true', Bool.not_eq_false] at hcond
  obtain ⟨J, hJ⟩ : ∃ J, J = (B.batchStart T0_LIMIT I 0).1 := ⟨_, rfl⟩
  obtain ⟨L, hL⟩ : ∃ L, L = B.batchEnd B.count I (B.batchStart T0_LIMIT I 0).2 false := ⟨_, rfl⟩
  simp only [← hJ, ← hL] at h
  split at h
  · cases h
    exact absurd rfl hne
  obtain ⟨h1, h2, h3⟩ := batchStart_spec hw T0_LIMIT 0 hI
  obtain ⟨h4, h5⟩ := batchEnd_spec hw B.count I (B.batchStart T0_LIMIT I 0).2 false
  rw [← hJ] at h1 h2 h3
  rw [← hL] at h4 h5
  have hev : ∀ k, L ≤ k → k ≤ J → (B.Is k).is_evicted = false := by
    intro k hLk hkJ
    have hk : k < B.count := Nat.lt_of_le_of_lt hkJ h2
    rcases Nat.lt_trichotomy k I with hlt | rfl | hgt
    · exact hw.not_evicted_of_canPatch hk (h5 k hLk hlt)
    · exact hw.not_evicted_of_canPatch hk hcond.2.2.1
    · exact hw.not_evicted hk (h3 k hgt hkJ)
  obtain ⟨P, hP, h⟩ := bind_ok.mp h
  obtain ⟨Q, hQ, h⟩ := bind_ok.mp h
  have hLc : ∀ k ∈ some L, k < B.count := fun k hk => by
    obtain rfl : L = k := by simpa using hk
    exact Nat.lt_of_le_of_lt h4 hI
  have hevL : ∀ k₀ ∈ some L, ∀ k, k₀ ≤ k → k ≤ J → (B.Is k).is_evicted = false := fun k₀ hk₀ => by
    obtain rfl : L = k₀ := by simpa using hk₀
    exact hev
  obtain ⟨Ps, -, hp, hflags, -⟩ := freeBatch_spec hw hLc hevL hP
  have htP := freeBatch_tracks (S := fun k => L ≤ k ∧ k ≤ J) hw ht hLc hevL (fun k₀ hk₀ k hle hkJ => by
    obtain rfl : L = k₀ := by simpa using hk₀
    exact ⟨hle, hkJ⟩) hP
  have hwP := hw.evicts hp (.of_flags fun k hk => by rwa [hflags] at hk)
  have hJP : J < P.1.count := by rwa [hp.count]
  rcases evict_strikes hwP htP.tracked hJP hQ with ⟨hnil, -⟩ | ⟨hneQ, htQ, -⟩
  · rw [hnil] at h
    cases h
    exact absurd rfl hne
  rcases evict_spec hwP hJP hQ with ⟨hnil, -⟩ | ⟨PQ, -, hred⟩
  · exact absurd hnil hneQ
  have hempty : Q.2.isEmpty = false := by simpa using hneQ
  simp only [hempty, Bool.false_eq_true, if_false] at h
  cases h
  have hLJ : L ≤ J := Nat.le_trans h4 h1
  refine ⟨hcond.1, fun k => L ≤ k ∧ k ≤ J, htP.trans (htQ.mono (fun k hk => ?_) fun k hk => hk.elim),
    fun k hk => ?_⟩
  · rw [hk]
    exact ⟨hLJ, Nat.le_refl _⟩
  · obtain ⟨A, pre, hl, hAI, hAT, -⟩ := hred.redirects
    refine ⟨A, J, L, hl, hAI, ?_, hk.1, hk.2, by rw [hred.progress.count]; exact hJP⟩
    rw [hAT, ((hp.trans hred.progress).instrs L).fields.2.2]

/-! ### All tactics -/

/-- A success patches `I` and evicts, or T0 puts instructions into a batch. -/
def Touches (I : Nat) (B B' : Binary) : Prop :=
  Patching I B B' ∨ (B.options.option_tactic_T0 = true ∧ ∃ R, Tracks R R B B' ∧ ∀ k, R k → Batched B' k)

theorem orTry_touches {r' : Binary × List Patch} {f : Binary → Except Fault (Binary × List Patch)}
    (ht : Tracked B) (hspec : AllOrNothing I T B r) (h : r.2 ≠ [] → Touches I B r.1)
    (hr : orTry r f = .ok r') (hf : ∀ C, Unchanged B C → f C = .ok r' → r'.2 ≠ [] → Patching I C r'.1)
    (hne : r'.2 ≠ []) : Touches I B r'.1 := by
  rcases hspec with ⟨hnil, hu⟩ | ⟨hne', -⟩
  · simp only [Binary.orTry, hnil] at hr
    exact Or.inl ((ht.unchanged hu).trans (hf r.1 hu hr hne))
  · unfold Binary.orTry at hr
    split at hr
    · rename_i hnil
      exact absurd hnil hne'
    · cases hr
      exact h hne'

theorem Strikes.patching (h : Strikes I T B r) (hne : r.2 ≠ []) : Patching I B r.1 := by
  rcases h with ⟨hnil, -⟩ | ⟨-, h, -⟩
  · exact absurd hnil hne
  · exact h.mono (fun k => Or.inl) fun k => id

theorem tactics_touches (hw : WellFormed B) (ht : Tracked B) (hI : I < B.count) (hT : T ≠ evicteeTrampoline)
    (h : tactics I T B = .ok r) (hne : r.2 ≠ []) : Touches I B r.1 := by
  obtain ⟨r₀, r₁, r₂, r₃, r₄, r₅, ⟨h₀, g₀⟩, ⟨h₁, g₁⟩, ⟨h₂, g₂⟩, ⟨h₃, g₃⟩, ⟨h₄, g₄⟩, ⟨h₅, g₅⟩, h, -⟩ :=
    tactics_tried hw hI hT h
  have hI' : ∀ {C}, Unchanged B C → I < C.count := fun hu => by rwa [hu.progress.count]
  have t₀ : r₀.2 ≠ [] → Touches I B r₀.1 := fun hne => Or.inr (tactic_T0_tracks hw ht hI h₀ hne)
  have t₁ := orTry_touches ht g₀ t₀ h₁ fun C hu hC =>
    (tactic_B1_strikes (hw.unchanged hu) (ht.of_unchanged hu) (hI' hu) hC).patching
  have t₂ := orTry_touches ht g₁ t₁ h₂ fun C hu hC =>
    (tactic_B2_strikes (hw.unchanged hu) (ht.of_unchanged hu) (hI' hu) hC).patching
  have t₃ := orTry_touches ht g₂ t₂ h₃ fun C hu hC =>
    (tactic_T1_strikes (hw.unchanged hu) (ht.of_unchanged hu) (hI' hu) hC).patching
  have t₄ := orTry_touches ht g₃ t₃ h₄ fun C hu hC =>
    tactic_T2_tracks (hw.unchanged hu) (ht.of_unchanged hu) (hI' hu) hC
  have t₅ := orTry_touches ht g₄ t₄ h₅ fun C hu hC =>
    tactic_T3_tracks (hw.unchanged hu) (ht.of_unchanged hu) (hI' hu) hT hC
  exact orTry_touches ht g₅ t₅ h (fun C hu hC =>
    tactic_B0_tracks (hw.unchanged hu) (ht.of_unchanged hu) (hI' hu) hC) hne

end

/-- What `patch` touches. -/
theorem patch_touches {B B' : Binary} {I : Nat} {T : Template} {o : Option Tactic} (hw : WellFormed B)
    (ht : Tracked B) (hI : I < B.count) (h : Binary.patch I (.user T) B = .ok (B', o)) :
    (o = none ∧ Unchanged B B') ∨ (o ≠ none ∧ Touches I B B') := by
  have hT : (.user T) ≠ evicteeTrampoline := Trampoline.noConfusion
  obtain ⟨r, hr, ⟨-, hu, rfl, rfl⟩ | ⟨P, Ps, hP, -, rfl, rfl⟩⟩ := patch_cases hw hI hT h
  · exact Or.inl ⟨rfl, hu⟩
  · have htouch := tactics_touches hw ht hI hT hr (by rw [hP]; exact List.cons_ne_nil _ _)
    obtain ⟨Es, Traps, hC⟩ := commit_frame r.1 (P :: Ps)
    refine Or.inr ⟨Option.some_ne_none _, ?_⟩
    rw [hC]
    have hframe : ∀ {S R}, Tracks S R B r.1 → Tracks S R B { r.1 with Es := Es, Traps := Traps } :=
      fun htr => htr.trans (htr.tracked.same rfl (fun k => ⟨rfl, rfl, rfl, rfl⟩) fun q => rfl)
    rcases htouch with hp | ⟨hT0, R, htr, hb⟩
    · exact Or.inl (hframe hp)
    · exact Or.inr ⟨hT0, R, hframe htr, hb⟩

end E9Patch
