import E9Patch.PatchState

/-!
The tactics that replace an instruction by a jump (B1, B2 and T1): a failure leaves everything unchanged,
a success redirects the instruction to its trampoline, closes it, and can be undone.
-/

namespace E9Patch
open Bytes Binary Fallible

/-- The instruction is a jump, behind at most three redundant prefixes, to the entry of a live allocation
for it and `T`. -/
def Redirects (B : Binary) (I : Nat) (T : Trampoline) : Prop :=
  ∃ A pre, Live B.allocator A ∧ (B.alloc A).I = some I ∧ (B.alloc A).T = some T ∧ pre ≤ 3 ∧
    (∀ i < pre, B.PATCH I i = byteAt prefixes i ∧ Protected (B.STATE I i)) ∧ Jumps B I pre (B.entry A)

theorem Redirects.progress {B B' : Binary} {I : Nat} {T : Trampoline} (h : Redirects B I T)
    (hp : Progress B B') : Redirects B' I T := by
  obtain ⟨A, pre, hl, hI, hT, hpre, hb, hj⟩ := h
  obtain ⟨hl', ha⟩ := hp.keeps.live hl
  obtain ⟨ho, -, haddr⟩ := (hp.instrs I).fields
  have halloc : B'.alloc A = B.alloc A := ha
  have hentry : B'.entry A = B.entry A := by rw [entry, entry, halloc]
  refine ⟨A, pre, hl', by rw [halloc, hI], by rw [halloc, hT], hpre, fun i hi => ?_, ?_⟩
  · rw [PATCH, STATE, ho]
    have := (hp.evolves _).guarded (hb i hi).2
    exact ⟨this.1.trans (hb i hi).1, this.2⟩
  · rw [hentry]
    exact hj.evolves hp.evolves ho haddr

/-! ### Placing a jump -/

theorem scan_congr {p p' : Nat → Bool} {n size : Nat} (h : ∀ i, size ≤ i → p i = p' i) :
    scan p n size = scan p' n size := by
  induction n generalizing size with
  | zero => rfl
  | succ n ih =>
      unfold scan
      rw [h size (Nat.le_refl _), ih fun i hi => h i (by omega)]

theorem jumpRun_congr {B C : Binary} {I pre : Nat} (hs : (C.Is I).size = (B.Is I).size)
    (hc : ∀ i, pre < i → C.STATE I i = B.STATE I i) : C.jumpRun I pre = B.jumpRun I pre := by
  unfold jumpRun
  simp only [hs]
  have h1 : scan (fun i => decide (C.STATE I i = STATE_INSTRUCTION ∨ C.STATE I i = STATE_FREE))
      ((B.Is I).size - (pre + 1)) (pre + 1) =
      scan (fun i => decide (B.STATE I i = STATE_INSTRUCTION ∨ B.STATE I i = STATE_FREE))
      ((B.Is I).size - (pre + 1)) (pre + 1) := scan_congr fun i hi => by rw [hc i hi]
  rw [h1]
  exact scan_congr fun i hi => by rw [hc i (Nat.lt_of_lt_of_le (Nat.lt_succ_self pre) ((scan_ge _ _ _).trans hi))]

/-- A jump in `J` on behalf of `I`, behind what may have been written in front of it. -/
theorem placed_jumps {B B₁ C D : Binary} {I J A pre : Nat} {tactic : Tactic} {T : Trampoline}
    (ha : Allocated B B₁ A T (some I)) (hin : WithinBounds B T J I pre false (B₁.entry A))
    (hr : Rewrites (B₁.newPatch J tactic (some A)).1 C)
    (hc : ∀ q, (B.Is J).offset + pre ≤ q → C.cell q = B.cell q)
    (hD : C.patchJump (B₁.newPatch J tactic (some A)).2 pre = .ok D) :
    JumpWritten C D J pre (B₁.entry A) ∧ Jumps D J pre (B₁.entry A) := by
  obtain ⟨A', hA', hw⟩ := patchJump_spec hD
  obtain rfl : A = A' := by simpa using hA'
  have hentry : C.entry A = B₁.entry A := by
    rw [hr]
    rfl
  rw [hentry, newPatch_I] at hw
  refine ⟨hw, hw.jumps fun i hi hrun => ?_⟩
  have hBJ : B₁.Is = B.Is := by rw [ha.binary]
  have hCJ : (C.Is J).offset = (B.Is J).offset ∧ (C.Is J).size = (B.Is J).size ∧
      (C.Is J).addr = (B.Is J).addr := by
    rw [hr.Is, newPatch_Is, if_pos rfl, hBJ]
    exact ⟨rfl, rfl, rfl⟩
  have hrun' : C.jumpRun J pre = B.jumpRun J pre := jumpRun_congr hCJ.2.1 fun k hk => by
    rw [STATE, STATE, hCJ.1]
    exact congrArg Prod.snd (hc _ (by omega))
  rw [hrun'] at hrun
  rw [hCJ.1, hCJ.2.2, ← hin.punned hi hrun]
  exact congrArg Prod.fst (hc _ (by omega))

theorem applyJump_ok {B₁ D : Binary} {I A pre : Nat} {tactic : Tactic} {P : Patch}
    (h : B₁.applyJump I tactic A pre = .ok (D, P)) :
    (B₁.newPatch I tactic (some A)).1.patchJump (B₁.newPatch I tactic (some A)).2 pre = .ok D ∧
      P = (B₁.newPatch I tactic (some A)).2 := by
  obtain ⟨D', hD', h⟩ := bind_ok.mp h
  cases h
  exact ⟨hD', rfl⟩

/-- A patch that redirected `I` to a trampoline for `T`. -/
structure Redirected (I : Nat) (T : Trampoline) (tactic : Tactic) (B B' : Binary) (P : Patch) : Prop where
  tactic : P.tactic = tactic
  progress : Progress B B'
  undoes : Undoes B B' [P]
  others : ∀ k, k ≠ I → B'.Is k = B.Is k
  evicted : (B'.Is I).is_evicted = true → T = evicteeTrampoline
  closed : Closed B' I
  redirects : Redirects B' I T

/-- The three tactics: `C` is the state with the prefix of the jump, `D` the one with the jump, and `E`
the one with the rest of the instruction freed. -/
theorem redirected {B B₁ C D E : Binary} {I A pre : Nat} {tactic : Tactic} {T : Trampoline}
    (hw : WellFormed B) (hI : I < B.count) (hcan : B.canPatch I = true)
    (ha : Allocated B B₁ A T (some I)) (hin : WithinBounds B T I I pre false (B₁.entry A)) (hpre : pre ≤ 3)
    (hr : Rewrites (B₁.newPatch I tactic (some A)).1 C)
    (hcells : ∀ i < pre, C.cell ((B.Is I).offset + i) = (byteAt prefixes i, STATE_PATCHED))
    (hother : ∀ q, ¬((B.Is I).offset ≤ q ∧ q < (B.Is I).offset + pre) → C.cell q = B.cell q)
    (hev : Evolves B C) (hD : C.patchJump (B₁.newPatch I tactic (some A)).2 pre = .ok D)
    (hrE : Rewrites D E)
    (hE : ∀ q, E.cell q = if (B.Is I).offset + 5 ≤ q ∧ q < (B.Is I).offset + (B.Is I).size then
      freed (D.cell q) else D.cell q) :
    Redirected I T tactic B E (B₁.newPatch I tactic (some A)).2 := by
  obtain ⟨hwritten, hjumps⟩ := placed_jumps ha hin hr (fun q hq => hother q (by omega)) hD
  have hBI : B₁.Is = B.Is := by rw [ha.binary]
  have hCI : (C.Is I).offset = (B.Is I).offset ∧ (C.Is I).size = (B.Is I).size := by
    rw [hr.Is, newPatch_Is, if_pos rfl, hBI]
    exact ⟨rfl, rfl⟩
  have hrD : Rewrites (B₁.newPatch I tactic (some A)).1 D := hr.trans hwritten.rewrites
  have hDE : Evolves D E := by
    intro q
    rw [hE q]
    split
    · exact .freed _
    · exact .refl _
  have hevE : Evolves B E := (hev.trans hwritten.evolves).trans hDE
  have hallB₁ : B₁.Allocates := ha.progress.allocates
  have hallP := (newPatch_progress hallB₁ I tactic (some A)).allocates
  -- the flags of `I` and the allocation are new, the rest are bytes and states
  have hprogress : Progress B E := by
    have h1 := ha.progress.trans (newPatch_progress hallB₁ I tactic (some A))
    exact h1.trans ((hrD.trans hrE).progress (fun q => by rw [newPatch_cell, ha.cell]; exact hevE q) hallP)
  have hjumpsE : Jumps E I pre (E.entry A) := by
    have h1 : E.entry A = B₁.entry A := by
      rw [hrD.trans hrE]
      rfl
    have h2 := hrE.Is
    rw [h1]
    exact hjumps.evolves hDE (by rw [h2]) (by rw [h2])
  obtain ⟨hEo, hEs, -⟩ := (hprogress.instrs I).fields
  have hCD : ∀ i < pre, D.cell ((B.Is I).offset + i) = (byteAt prefixes i, STATE_PATCHED) := by
    intro i hi
    rw [hwritten.other _ (by rw [hCI.1]; omega), hcells i hi]
  have hEprefix : ∀ i < pre, E.cell ((B.Is I).offset + i) = (byteAt prefixes i, STATE_PATCHED) := by
    intro i hi
    rw [hE, if_neg (by omega), hCD i hi]
  have hlocked : ∀ i < pre + 5, Protected (E.STATE I i) := by
    intro i hi
    by_cases hip : i < pre
    · rw [STATE, hEo, ← cell_snd, hEprefix i hip]
      exact Or.inl rfl
    · have := hjumpsE.locked (i - pre) (by omega)
      rwa [show pre + (i - pre) = i from by omega] at this
  refine ⟨rfl, hprogress, ?_, fun k hk => ?_, fun hk => ?_, ⟨hlocked 0 (by omega), fun i hi => ?_⟩, ?_⟩
  · refine undoes_newPatch ha.binary (hw.not_evicted_of_canPatch hI hcan)
      (fun t' ht' => ha.deallocate ht') (hrD.trans hrE) fun q hq => ?_
    have hwin := hwritten.window
    have hsize := (hw.size I hI).2
    simp only [InWindow, PATCH_MAX, JMP_SIZE] at hq hwin
    rw [hE, if_neg (by omega), hwritten.other q (by rw [hCI.1]; omega), hother q (by omega)]
  · rw [(hrD.trans hrE).Is, newPatch_Is, if_neg hk, hBI]
  · have hI' : (B.Is I).is_evicted = false := hw.not_evicted_of_canPatch hI hcan
    rw [(hrD.trans hrE).Is, newPatch_Is, if_pos rfl, hBI] at hk
    simpa [hI', ha.T] using hk
  · rw [hEs] at hi
    by_cases hi5 : i < pre + 5
    · exact protected_dead (hlocked i hi5)
    · rw [STATE, hEo, ← cell_snd, hE, if_pos (by omega)]
      refine freed_dead ?_
      rw [hwritten.other _ (by rw [hCI.1]; omega), hother _ (by omega)]
      exact hw.known I hI i hi
  · have halloc : E.alloc A = B₁.alloc A := by
      rw [hrD.trans hrE]
      rfl
    have hEalloc : E.allocator = B₁.allocator := by
      rw [hrD.trans hrE]
      rfl
    refine ⟨A, pre, by rw [hEalloc]; exact ha.live, by rw [halloc, ha.I], by rw [halloc, ha.T], hpre,
      fun i hi => ?_, hjumpsE⟩
    exact ⟨by rw [PATCH, hEo, ← cell_fst, hEprefix i hi], hlocked i (by omega)⟩

/-! ### The tactics -/

/-- A tactic that fails leaves everything unchanged, and one that succeeds redirects `I` by one patch. -/
def Attempt (I : Nat) (T : Trampoline) (tactic : Tactic) (B : Binary) (r : Binary × List Patch) : Prop :=
  (r.2 = [] ∧ Unchanged B r.1) ∨ ∃ P, r.2 = [P] ∧ Redirected I T tactic B r.1 P

theorem Redirected.of_unchanged {B C E : Binary} {I : Nat} {T : Trampoline} {tactic : Tactic} {P : Patch}
    (h : Redirected I T tactic C E P) (hu : Unchanged B C) : Redirected I T tactic B E P :=
  ⟨h.tactic, hu.progress.trans h.progress, fun E' hE' => hu.trans (h.undoes E' hE'),
    fun k hk => by rw [h.others k hk, hu.Is], h.evicted, h.closed, h.redirects⟩

theorem Attempt.orTry {B : Binary} {I : Nat} {T : Trampoline} {tactic : Tactic}
    {r r' : Binary × List Patch} {f : Binary → Except Fault (Binary × List Patch)}
    (h : Attempt I T tactic B r) (hr : orTry r f = .ok r')
    (hf : ∀ C, Unchanged B C → f C = .ok r' → Attempt I T tactic C r') : Attempt I T tactic B r' := by
  rcases h with ⟨hnil, hu⟩ | ⟨P, hP, hred⟩
  · simp only [Binary.orTry, hnil] at hr
    rcases hf r.1 hu hr with ⟨hnil', hu'⟩ | ⟨P, hP, hred⟩
    · exact Or.inl ⟨hnil', hu.trans hu'⟩
    · exact Or.inr ⟨P, hP, hred.of_unchanged hu⟩
  · simp only [Binary.orTry, hP] at hr
    cases hr
    exact Or.inr ⟨P, hP, hred⟩

section
variable {B : Binary} {I : Nat} {T : Trampoline} {tactic : Tactic} {r : Binary × List Patch}

theorem tactic_B1_spec (hw : WellFormed B) (hI : I < B.count) (h : tactic_B1 I T tactic B = .ok r) :
    Attempt I T tactic B r := by
  unfold tactic_B1 at h
  split at h
  · cases h
    exact Or.inl ⟨rfl, .refl hw.allocates⟩
  · rename_i hcond
    simp only [not_or, Bool.not_eq_true', Bool.not_eq_false] at hcond
    obtain ⟨o, ho, h⟩ := bind_ok.mp h
    cases o with
    | none =>
        cases h
        exact Or.inl ⟨rfl, .refl hw.allocates⟩
    | some o =>
        obtain ⟨B₁, A⟩ := o
        obtain ⟨⟨D, P⟩, hD, h⟩ := bind_ok.mp h
        obtain ⟨E, hE, h⟩ := bind_ok.mp h
        cases h
        obtain ⟨hD', rfl⟩ := applyJump_ok hD
        obtain ⟨ha, hin⟩ := allocatePunnedJump_spec hw.allocates ho
        obtain ⟨-, hrE, hcE⟩ := patchUnused_spec hE
        refine Or.inr ⟨_, rfl, redirected hw hI hcond.2.2 ha hin (by omega) (Rewrites.refl _)
          (fun i hi => absurd hi (by omega)) (fun q _ => by rw [newPatch_cell, ha.cell])
          (fun q => by rw [newPatch_cell, ha.cell]; exact .refl _) hD' hrE fun q => ?_⟩
        have hDI : (D.Is I).offset = (B.Is I).offset ∧ (D.Is I).size = (B.Is I).size := by
          obtain ⟨_, _, hw'⟩ := patchJump_spec hD'
          rw [hw'.rewrites.Is, newPatch_Is, if_pos rfl, ha.binary]
          exact ⟨rfl, rfl⟩
        rw [hcE q, hDI.1, hDI.2]

/-- B2 and T1 leave nothing of the instruction over. -/
theorem redirected_short {B₁ C D : Binary} {A pre : Nat} (hw : WellFormed B) (hI : I < B.count)
    (hsize : (B.Is I).size < 5) (hcan : B.canPatch I = true) (ha : Allocated B B₁ A T (some I))
    (hin : WithinBounds B T I I pre false (B₁.entry A)) (hpre : pre ≤ 3)
    (hr : Rewrites (B₁.newPatch I tactic (some A)).1 C)
    (hcells : ∀ i < pre, C.cell ((B.Is I).offset + i) = (byteAt prefixes i, STATE_PATCHED))
    (hother : ∀ q, ¬((B.Is I).offset ≤ q ∧ q < (B.Is I).offset + pre) → C.cell q = B.cell q)
    (hev : Evolves B C) (hD : C.patchJump (B₁.newPatch I tactic (some A)).2 pre = .ok D) :
    Redirected I T tactic B D (B₁.newPatch I tactic (some A)).2 :=
  redirected hw hI hcan ha hin hpre hr hcells hother hev hD (Rewrites.refl D) fun q => by
    rw [if_neg (by omega)]

theorem tactic_B2_spec (hw : WellFormed B) (hI : I < B.count) (h : tactic_B2 I T tactic B = .ok r) :
    Attempt I T tactic B r := by
  unfold tactic_B2 at h
  split at h
  · cases h
    exact Or.inl ⟨rfl, .refl hw.allocates⟩
  · rename_i hcond
    simp only [not_or, Bool.not_eq_true', Bool.not_eq_false, JMP_SIZE] at hcond
    obtain ⟨o, ho, h⟩ := bind_ok.mp h
    cases o with
    | none =>
        cases h
        exact Or.inl ⟨rfl, .refl hw.allocates⟩
    | some o =>
        obtain ⟨B₁, A⟩ := o
        obtain ⟨⟨D, P⟩, hD, h⟩ := bind_ok.mp h
        cases h
        obtain ⟨hD', rfl⟩ := applyJump_ok hD
        obtain ⟨ha, hin⟩ := allocatePunnedJump_spec hw.allocates ho
        exact Or.inr ⟨_, rfl, redirected_short hw hI (by omega) hcond.2.2 ha hin (by omega)
          (Rewrites.refl _) (fun i hi => absurd hi (by omega))
          (fun q _ => by rw [newPatch_cell, ha.cell])
          (fun q => by rw [newPatch_cell, ha.cell]; exact .refl _) hD'⟩

theorem tactic_T1Loop_spec {pres : List Nat} (hw : WellFormed B) (hI : I < B.count)
    (hsize : (B.Is I).size < 5) (hcan : B.canPatch I = true) (hpres : ∀ pre ∈ pres, pre ≤ 3)
    (h : tactic_T1Loop I T tactic B pres = .ok r) : Attempt I T tactic B r := by
  induction pres with
  | nil =>
      cases h
      exact Or.inl ⟨rfl, .refl hw.allocates⟩
  | cons pre pres ih =>
      unfold tactic_T1Loop at h
      split at h
      · cases h
        exact Or.inl ⟨rfl, .refl hw.allocates⟩
      · obtain ⟨o, ho, h⟩ := bind_ok.mp h
        cases o with
        | none => exact ih (fun pre hpre => hpres pre (by simp [hpre])) h
        | some o =>
            obtain ⟨B₁, A⟩ := o
            obtain ⟨C, hC, h⟩ := bind_ok.mp h
            obtain ⟨D, hD, h⟩ := bind_ok.mp h
            cases h
            obtain ⟨ha, hin⟩ := allocatePunnedJump_spec hw.allocates ho
            obtain ⟨-, -, hrC, hcells, hother⟩ := patchJumpPrefix_spec hC
            have hoff : ((B₁.newPatch I tactic (some A)).1.Is I).offset = (B.Is I).offset := by
              rw [newPatch_Is, if_pos rfl, ha.binary]
            rw [hoff] at hcells hother
            refine Or.inr ⟨_, rfl, redirected_short hw hI hsize hcan ha hin (hpres pre (by simp)) hrC
              (fun i hi => (hcells i hi).2)
              (fun q hq => by rw [hother q hq, newPatch_cell, ha.cell]) (fun q => ?_) hD⟩
            have := patchJumpPrefix_evolves hC q
            rwa [newPatch_cell, ha.cell] at this

theorem tactic_T1_spec (hw : WellFormed B) (hI : I < B.count) (h : tactic_T1 I T tactic B = .ok r) :
    Attempt I T tactic B r := by
  unfold tactic_T1 at h
  split at h
  · cases h
    exact Or.inl ⟨rfl, .refl hw.allocates⟩
  · rename_i hcond
    simp only [not_or, Bool.not_eq_true', Bool.not_eq_false, JMP_SIZE] at hcond
    exact tactic_T1Loop_spec hw hI (by omega) hcond.2.2 (by decide) h

/-- B2, or else T1. -/
theorem punned_spec {r₁ : Binary × List Patch} (hw : WellFormed B) (hI : I < B.count)
    (h₁ : tactic_B2 I T tactic B = .ok r₁) (h : orTry r₁ (tactic_T1 I T tactic) = .ok r) :
    Attempt I T tactic B r :=
  (tactic_B2_spec hw hI h₁).orTry h fun _ hu =>
    tactic_T1_spec (hw.unchanged hu) (by rwa [hu.progress.count])

theorem evict_spec (hw : WellFormed B) (hI : I < B.count) (h : evict I tactic T B = .ok r) :
    Attempt I T tactic B r := by
  unfold evict at h
  obtain ⟨r₁, h₁, h⟩ := bind_ok.mp h
  obtain ⟨r₂, h₂, h⟩ := bind_ok.mp h
  refine ((tactic_B1_spec hw hI h₁).orTry h₂ fun _ hu => ?_).orTry h fun _ hu => ?_
  · exact tactic_B2_spec (hw.unchanged hu) (by rwa [hu.progress.count])
  · exact tactic_T1_spec (hw.unchanged hu) (by rwa [hu.progress.count])

end

end E9Patch
