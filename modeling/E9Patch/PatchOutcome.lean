import E9Patch.PatchTactics

/-!
The batches of T0, the traps of B0, and `patch` itself. A batch frees instructions one after another; as
none of them is an evicted one, the list of their patches undoes them in the reverse order.
-/

namespace E9Patch
open Bytes Binary Fallible

/-! ### T0 -/

/-- Freeing an instruction that is not an evicted one. -/
theorem freeInstr_spec {B C : Binary} {K : Nat} (hw : WellFormed B) (hK : K < B.count)
    (hev : (B.Is K).is_evicted = false) (hC : (B.newPatch K .T0 none).1.patchUnused K 0 = .ok C) :
    Progress B C ∧ (∀ k, (C.Is k).is_evicted = (B.Is k).is_evicted) ∧
      Undoes B C [(B.newPatch K .T0 none).2] := by
  obtain ⟨-, hr, hc⟩ := patchUnused_spec hC
  have hp := newPatch_progress hw.allocates K .T0 none
  refine ⟨hp.trans (hr.progress (patchUnused_evolves hC) hp.allocates), fun k => ?_, ?_⟩
  · rw [hr.Is]
    exact newPatch_not_evicts (fun a ha => by cases ha) k
  · refine undoes_newPatch rfl hev (fun t' ht' => ht') hr fun q hq => ?_
    have hoff : ((B.newPatch K .T0 none).1.Is K).offset = (B.Is K).offset := by
      rw [newPatch_Is, if_pos rfl]
    have hsize : ((B.newPatch K .T0 none).1.Is K).size = (B.Is K).size := by
      rw [newPatch_Is, if_pos rfl]
    have := (hw.size K hK).2
    simp only [InWindow, PATCH_MAX] at hq
    rw [hc, hoff, hsize, if_neg (by omega), newPatch_cell]

/-- A later instruction of the array is at a lower address. -/
theorem WellFormed.addr_lt {B : Binary} (hw : WellFormed B) {j k : Nat} (hjk : j < k)
    (hk : k < B.count) : (B.Is k).addr < (B.Is j).addr := by
  have h1 := hw.addrs j k hjk hk
  have h2 := (hw.size k hk).1
  omega

theorem freeBatch_spec {B : Binary} {J fuel : Nat} {K : Option Nat} {Ps : List Patch}
    {r : Binary × List Patch} (hw : WellFormed B) (hK : ∀ k ∈ K, k < B.count)
    (hev : ∀ k₀ ∈ K, ∀ k, k₀ ≤ k → k ≤ J → (B.Is k).is_evicted = false)
    (h : freeBatch J fuel K Ps B = .ok r) :
    ∃ Qs, r.2 = Qs ++ Ps ∧ Progress B r.1 ∧ (∀ k, (r.1.Is k).is_evicted = (B.Is k).is_evicted) ∧
      Undoes B r.1 Qs := by
  have hself : ∃ Qs, Ps = Qs ++ Ps ∧ Progress B B ∧ (∀ k, (B.Is k).is_evicted = (B.Is k).is_evicted) ∧
      Undoes B B Qs := ⟨[], rfl, .refl hw.allocates, fun _ => rfl, .nil⟩
  induction fuel generalizing B K Ps with
  | zero =>
      cases h
      exact hself
  | succ fuel ih =>
      cases K with
      | none =>
          cases h
          exact hself
      | some K =>
          unfold freeBatch at h
          split at h
          · cases h
            exact hself
          · rename_i haddr
            obtain ⟨C, hC, h⟩ := bind_ok.mp h
            have hKJ : K ≤ J := by
              by_contra hlt
              exact haddr (hw.addr_lt (Nat.lt_of_not_le hlt) (hK K rfl))
            obtain ⟨hp, hflags, hu⟩ :=
              freeInstr_spec hw (hK K rfl) (hev K rfl K (Nat.le_refl _) hKJ) hC
            have hwC := hw.evicts hp (.of_flags fun k hk => by rwa [hflags] at hk)
            have hpred : ∀ k ∈ C.pred K, k = K + 1 ∧ k < C.count := fun k hk => pred_some hwC hk
            obtain ⟨Qs, hQs, hp', hflags', hu'⟩ := ih hwC (fun k hk => (hpred k hk).2)
              (fun k₀ hk₀ k hle hkJ => by
                rw [hflags]
                exact hev K rfl k (by rw [(hpred k₀ hk₀).1] at hle; omega) hkJ) h
              ⟨[], rfl, .refl hwC.allocates, fun _ => rfl, .nil⟩
            refine ⟨Qs ++ [(B.newPatch K .T0 none).2], ?_, hp.trans hp', fun k => ?_, hu.trans hu'⟩
            · rw [hQs, List.append_assoc]
              rfl
            · rw [hflags', hflags]

/-- The batch starts at or before `K`, and no jump can have been put over the instructions in between. -/
theorem batchStart_spec {B : Binary} (hw : WellFormed B) (limit size : Nat) {K : Nat} (hK : K < B.count) :
    K ≤ (B.batchStart limit K size).1 ∧ (B.batchStart limit K size).1 < B.count ∧
      ∀ k, K < k → k ≤ (B.batchStart limit K size).1 → ¬Protected (B.STATE k 0) := by
  induction limit generalizing K size with
  | zero => exact ⟨Nat.le_refl _, hK, fun k h1 h2 => absurd h1 (Nat.not_lt.mpr h2)⟩
  | succ limit ih =>
      have hstop : K ≤ K ∧ K < B.count ∧ ∀ k, K < k → k ≤ K → ¬Protected (B.STATE k 0) :=
        ⟨Nat.le_refl _, hK, fun k h1 h2 => absurd h1 (Nat.not_lt.mpr h2)⟩
      unfold batchStart
      split
      · exact hstop
      simp only
      split
      · exact hstop
      rename_i K' hK'
      obtain ⟨rfl, hlt⟩ := pred_some hw hK'
      split
      · exact hstop
      rename_i hstate
      obtain ⟨h1, h2, h3⟩ := ih (size + (B.Is K).size) hlt
      refine ⟨by omega, h2, fun k hk hk' => ?_⟩
      rcases Nat.lt_or_eq_of_le (Nat.succ_le_of_lt hk) with hlt' | rfl
      · exact h3 k hlt' hk'
      · intro hp
        rw [not_and_or, not_not, not_not] at hstate
        rcases hstate with hs | hs
        · rw [Nat.succ_eq_add_one, hs] at hp
          exact absurd hp (by decide)
        · rw [Nat.succ_eq_add_one, hs] at hp
          exact absurd hp (by decide)

/-- The batch ends at or after `L`, and the instructions in between can be patched. -/
theorem batchEnd_spec {B : Binary} (hw : WellFormed B) (fuel L size : Nat) (cft : Bool) :
    B.batchEnd fuel L size cft ≤ L ∧
      ∀ k, B.batchEnd fuel L size cft ≤ k → k < L → B.canPatch k = true := by
  have hstop : ∀ {L}, L ≤ L ∧ ∀ k, L ≤ k → k < L → B.canPatch k = true :=
    ⟨Nat.le_refl _, fun k h1 h2 => absurd h2 (Nat.not_lt.mpr h1)⟩
  induction fuel generalizing L size cft with
  | zero => exact hstop
  | succ fuel ih =>
      unfold batchEnd
      split
      · exact hstop
      split
      · exact hstop
      rename_i K hK
      obtain ⟨rfl, -⟩ := succ_some hw hK
      split
      · exact hstop
      rename_i hcan
      simp only [not_or, Bool.not_eq_true', Bool.not_eq_false] at hcan
      obtain ⟨h1, h2⟩ := ih K (size + (B.Is K).size) (isCFT (B.ORIG K) ⟨true, true, true, false⟩)
      refine ⟨by omega, fun k hk hk' => ?_⟩
      rcases Nat.lt_or_eq_of_le (Nat.le_of_lt_succ hk') with hlt | rfl
      · exact h2 k hk hlt
      · exact hcan.2.1

section
variable {B : Binary} {I : Nat} {T : Trampoline} {r : Binary × List Patch}

theorem tactic_T0_spec (hw : WellFormed B) (hI : I < B.count) (h : tactic_T0 I T B = .ok r) :
    AllOrNothing I T B r := by
  unfold tactic_T0 at h
  split at h
  · cases h
    exact .unchanged (.refl hw.allocates)
  rename_i hcond
  simp only [not_or, Bool.not_eq_true', Bool.not_eq_false] at hcond
  obtain ⟨J, hJ⟩ : ∃ J, J = (B.batchStart T0_LIMIT I 0).1 := ⟨_, rfl⟩
  obtain ⟨L, hL⟩ : ∃ L, L = B.batchEnd B.count I (B.batchStart T0_LIMIT I 0).2 false := ⟨_, rfl⟩
  simp only [← hJ, ← hL] at h
  split at h
  · cases h
    exact .unchanged (.refl hw.allocates)
  obtain ⟨h1, h2, h3⟩ := batchStart_spec hw T0_LIMIT 0 hI
  obtain ⟨h4, h5⟩ := batchEnd_spec hw B.count I (B.batchStart T0_LIMIT I 0).2 false
  rw [← hJ] at h1 h2 h3
  rw [← hL] at h4 h5
  -- what is freed was open, so that it is not an evicted instruction
  have hev : ∀ k, L ≤ k → k ≤ J → (B.Is k).is_evicted = false := by
    intro k hLk hkJ
    have hk : k < B.count := Nat.lt_of_le_of_lt hkJ h2
    rcases Nat.lt_trichotomy k I with hlt | rfl | hgt
    · exact hw.not_evicted_of_canPatch hk (h5 k hLk hlt)
    · exact hw.not_evicted_of_canPatch hk hcond.2.2.1
    · exact hw.not_evicted hk (h3 k hgt hkJ)
  obtain ⟨P, hP, h⟩ := bind_ok.mp h
  obtain ⟨Q, hQ, h⟩ := bind_ok.mp h
  have hLc : L < B.count := Nat.lt_of_le_of_lt h4 hI
  obtain ⟨Ps, hPs, hp, hflags, hu⟩ := freeBatch_spec hw
    (fun k hk => by obtain rfl : L = k := by simpa using hk
                    exact hLc)
    (fun k₀ hk₀ => by obtain rfl : L = k₀ := by simpa using hk₀
                      exact hev) hP
  rw [List.append_nil] at hPs
  have hevP : EvictsOnly B P.1 := .of_flags fun k hk => by rwa [hflags] at hk
  have hwP := hw.evicts hp hevP
  rcases evict_spec hwP (by rwa [hp.count]) hQ with ⟨hnil, hu'⟩ | ⟨PQ, hPQ, hred⟩
  · rw [hnil] at h
    cases h
    rw [← hPs] at hu
    exact .unchanged (hu.unchanged hu')
  · simp only [hPQ, List.isEmpty_cons, Bool.false_eq_true, if_false] at h
    cases h
    refine Or.inr ⟨by simp [setNext], hp.trans hred.progress,
      hevP.trans hred.evicts hp hred.progress, fun R hR => ?_⟩
    obtain rfl : PQ = R := by simpa [setNext] using hR
    rw [hred.tactic]
    exact trivial

/-! ### B0 -/

theorem tactic_B0_spec (hw : WellFormed B) (hT : T ≠ evicteeTrampoline)
    (h : tactic_B0 I T B = .ok r) : AllOrNothing I T B r := by
  unfold tactic_B0 at h
  split at h
  · cases h
    exact .unchanged (.refl hw.allocates)
  obtain ⟨o, ho, h⟩ := bind_ok.mp h
  cases o with
  | none =>
      cases h
      exact .unchanged (.refl hw.allocates)
  | some o =>
      obtain ⟨B₁, A⟩ := o
      obtain ⟨C, hC, h⟩ := bind_ok.mp h
      obtain ⟨D, hD, h⟩ := bind_ok.mp h
      cases h
      obtain ⟨ha, -⟩ := allocateTrap_spec hw.allocates ho
      obtain ⟨_, hs, hC⟩ := bind_ok.mp hC
      rw [assert_ok] at hs
      cases hC
      have hp₁ := ha.progress.trans (newPatch_progress ha.progress.allocates I .B0 (some A))
      have hr := rewrites_write (B₁.newPatch I .B0 (some A)).1
        ((B₁.newPatch I .B0 (some A)).1.Is I).offset 0x27
      have hp₂ := hr.progress (write_evolves hs) hp₁.allocates
      have hrD := (patchUnused_spec hD).2.1
      have hp₃ := hrD.progress (patchUnused_evolves hD) hp₂.allocates
      have hflags : ∀ k, (D.Is k).is_evicted = (B.Is k).is_evicted := by
        intro k
        have hBI : B₁.Is = B.Is := by rw [ha.binary]
        rw [hrD.Is, hr.Is, ← hBI]
        refine newPatch_not_evicts (fun a haA => ?_) k
        obtain rfl : A = a := by simpa using haA
        rw [ha.T]
        exact fun he => hT (Option.some.inj he)
      refine Or.inr ⟨by simp, hp₁.trans (hp₂.trans hp₃),
        .of_flags fun k hk => (hflags k) ▸ hk, fun P hP => ?_⟩
      obtain rfl : _ = P := by simpa using hP
      exact trivial

end

/-! ### Which tactic a patch is of -/

/-- The first patch, if there is one, is of this tactic. -/
def Headed (tactic : Tactic) (r : Binary × List Patch) : Prop := ∀ P ∈ r.2.head?, P.tactic = tactic

theorem Headed.nil (tactic : Tactic) (B : Binary) : Headed tactic (B, []) := fun P hP => by cases hP

theorem Headed.cons {tactic : Tactic} (B : Binary) {P : Patch} (Ps : List Patch) (h : P.tactic = tactic) :
    Headed tactic (B, P :: Ps) := by
  intro Q hQ
  obtain rfl : P = Q := by simpa using hQ
  exact h

theorem orTry_cases {r r' : Binary × List Patch} {f : Binary → Except Fault (Binary × List Patch)}
    (h : orTry r f = .ok r') : (r.2 ≠ [] ∧ r' = r) ∨ (r.2 = [] ∧ f r.1 = .ok r') := by
  unfold orTry at h
  split at h
  · rename_i hnil
    exact Or.inr ⟨hnil, h⟩
  · rename_i hcons
    cases h
    exact Or.inl ⟨by rw [hcons]; simp, rfl⟩

theorem Headed.orTry {tactic : Tactic} {r r' : Binary × List Patch}
    {f : Binary → Except Fault (Binary × List Patch)} (hr : Headed tactic r) (h : orTry r f = .ok r')
    (hf : ∀ {C s}, f C = .ok s → Headed tactic s) : Headed tactic r' := by
  rcases orTry_cases h with ⟨-, rfl⟩ | ⟨-, h⟩
  · exact hr
  · exact hf h

section
variable {B : Binary} {I : Nat} {T : Trampoline} {tactic : Tactic} {r : Binary × List Patch}

theorem tactic_B1_headed (h : tactic_B1 I T tactic B = .ok r) : Headed tactic r := by
  unfold tactic_B1 at h
  split at h
  · cases h
    exact .nil _ _
  obtain ⟨o, -, h⟩ := bind_ok.mp h
  cases o with
  | none =>
      cases h
      exact .nil _ _
  | some o =>
      obtain ⟨⟨C, P⟩, hC, h⟩ := bind_ok.mp h
      obtain ⟨D, -, h⟩ := bind_ok.mp h
      cases h
      exact .cons _ _ (by rw [(applyJump_ok hC).2]; rfl)

theorem tactic_B2_headed (h : tactic_B2 I T tactic B = .ok r) : Headed tactic r := by
  unfold tactic_B2 at h
  split at h
  · cases h
    exact .nil _ _
  obtain ⟨o, -, h⟩ := bind_ok.mp h
  cases o with
  | none =>
      cases h
      exact .nil _ _
  | some o =>
      obtain ⟨⟨C, P⟩, hC, h⟩ := bind_ok.mp h
      cases h
      exact .cons _ _ (by rw [(applyJump_ok hC).2]; rfl)

theorem tactic_T1Loop_headed {pres : List Nat} (h : tactic_T1Loop I T tactic B pres = .ok r) :
    Headed tactic r := by
  induction pres with
  | nil =>
      cases h
      exact .nil _ _
  | cons pre pres ih =>
      unfold tactic_T1Loop at h
      split at h
      · cases h
        exact .nil _ _
      obtain ⟨o, -, h⟩ := bind_ok.mp h
      cases o with
      | none => exact ih h
      | some o =>
          obtain ⟨C, -, h⟩ := bind_ok.mp h
          obtain ⟨D, -, h⟩ := bind_ok.mp h
          cases h
          exact .cons _ _ rfl

theorem tactic_T1_headed (h : tactic_T1 I T tactic B = .ok r) : Headed tactic r := by
  unfold tactic_T1 at h
  split at h
  · cases h
    exact .nil _ _
  · exact tactic_T1Loop_headed h

theorem evict_headed (h : evict I tactic T B = .ok r) : Headed tactic r := by
  obtain ⟨r₁, h₁, h⟩ := bind_ok.mp h
  obtain ⟨r₂, h₂, h⟩ := bind_ok.mp h
  exact ((tactic_B1_headed h₁).orTry h₂ tactic_B2_headed).orTry h tactic_T1_headed

theorem Headed.setNext (hr : Headed tactic r) (hne : r.2.isEmpty = false) (B : Binary) (Ps : List Patch) :
    Headed tactic (B, setNext r.2 Ps) := by
  obtain ⟨C, Qs⟩ := r
  cases Qs with
  | nil => cases hne
  | cons Q Qs => exact .cons _ _ (hr Q rfl)

theorem tactic_T0_headed (h : tactic_T0 I T B = .ok r) : Headed .T0 r := by
  unfold tactic_T0 at h
  split at h
  · cases h
    exact .nil _ _
  simp only at h
  split at h
  · cases h
    exact .nil _ _
  obtain ⟨P, -, h⟩ := bind_ok.mp h
  obtain ⟨Q, hQ, h⟩ := bind_ok.mp h
  split at h
  · cases h
    exact .nil _ _
  · rename_i hne
    cases h
    exact (evict_headed hQ).setNext (Bool.eq_false_iff.mpr hne) _ _

theorem tactic_T2_headed (h : tactic_T2 I T B = .ok r) : Headed .T2 r := by
  unfold tactic_T2 at h
  split at h
  · cases h
    exact .nil _ _
  split at h
  · cases h
    exact .nil _ _
  split at h
  · cases h
    exact .nil _ _
  obtain ⟨Q, -, h⟩ := bind_ok.mp h
  obtain ⟨Q', hQ', h⟩ := bind_ok.mp h
  split at h
  · rename_i hnil
    cases h
    rw [List.isEmpty_iff] at hnil
    intro P hP
    rw [hnil] at hP
    cases hP
  obtain ⟨P, hP, h⟩ := bind_ok.mp h
  obtain ⟨P', hP', h⟩ := bind_ok.mp h
  split at h
  · cases h
    exact .nil _ _
  · rename_i hne
    cases h
    exact ((tactic_B2_headed hP).orTry hP' tactic_T1_headed).setNext (Bool.eq_false_iff.mpr hne) _ _

theorem tactic_T3b_headed (h : tactic_T3b I T B = .ok r) : Headed .T3 r := by
  unfold tactic_T3b at h
  split at h
  · cases h
    exact .nil _ _
  split at h
  · cases h
    exact .nil _ _
  split at h
  · cases h
    exact .nil _ _
  simp only at h
  split at h
  · cases h
    exact .nil _ _
  split at h
  · cases h
    exact .nil _ _
  split at h
  · cases h
    exact .nil _ _
  split at h
  · obtain ⟨s, -, h⟩ := bind_ok.mp h
    split at h
    · cases h
      exact .nil _ _
    · obtain ⟨_, -, h⟩ := bind_ok.mp h
      obtain ⟨K, -, h⟩ := bind_ok.mp h
      cases h
      exact .cons _ _ rfl
  · cases h
    exact .nil _ _

theorem tactic_T3_headed (h : tactic_T3 I T B = .ok r) : Headed .T3 r := by
  unfold tactic_T3 at h
  split at h
  · exact tactic_T3b_headed h
  split at h
  · cases h
    exact .nil _ _
  obtain ⟨s, -, h⟩ := bind_ok.mp h
  split at h
  · cases h
    exact .nil _ _
  · obtain ⟨C, -, h⟩ := bind_ok.mp h
    obtain ⟨D, -, h⟩ := bind_ok.mp h
    cases h
    exact .cons _ _ rfl

end

/-! ### All tactics -/

section
variable {B : Binary} {I : Nat} {T : Trampoline} {r : Binary × List Patch}

/-- Each tactic is tried where the ones before it have failed, on a binary that is as it was. -/
theorem tactics_tried (hw : WellFormed B) (hI : I < B.count) (hT : T ≠ evicteeTrampoline)
    (h : tactics I T B = .ok r) : ∃ r₀ r₁ r₂ r₃ r₄ r₅,
      (tactic_T0 I T B = .ok r₀ ∧ AllOrNothing I T B r₀) ∧
      (orTry r₀ (tactic_B1 I T .B1) = .ok r₁ ∧ AllOrNothing I T B r₁) ∧
      (orTry r₁ (tactic_B2 I T .B2) = .ok r₂ ∧ AllOrNothing I T B r₂) ∧
      (orTry r₂ (tactic_T1 I T .T1) = .ok r₃ ∧ AllOrNothing I T B r₃) ∧
      (orTry r₃ (tactic_T2 I T) = .ok r₄ ∧ AllOrNothing I T B r₄) ∧
      (orTry r₄ (tactic_T3 I T) = .ok r₅ ∧ AllOrNothing I T B r₅) ∧
      orTry r₅ (tactic_B0 I T) = .ok r ∧ AllOrNothing I T B r := by
  unfold tactics at h
  obtain ⟨r₀, h₀, h⟩ := bind_ok.mp h
  obtain ⟨r₁, h₁, h⟩ := bind_ok.mp h
  obtain ⟨r₂, h₂, h⟩ := bind_ok.mp h
  obtain ⟨r₃, h₃, h⟩ := bind_ok.mp h
  obtain ⟨r₄, h₄, h⟩ := bind_ok.mp h
  obtain ⟨r₅, h₅, h⟩ := bind_ok.mp h
  have hI' : ∀ {C}, Unchanged B C → I < C.count := fun hu => by rwa [hu.progress.count]
  have g₀ := tactic_T0_spec hw hI h₀
  have g₁ := g₀.orTry h₁ fun C hu hC =>
    (tactic_B1_spec (hw.unchanged hu) (hI' hu) hC).allOrNothing fun h => h
  have g₂ := g₁.orTry h₂ fun C hu hC =>
    (tactic_B2_spec (hw.unchanged hu) (hI' hu) hC).allOrNothing fun h => h
  have g₃ := g₂.orTry h₃ fun C hu hC =>
    (tactic_T1_spec (hw.unchanged hu) (hI' hu) hC).allOrNothing fun h => h
  have g₄ := g₃.orTry h₄ fun C hu hC => tactic_T2_spec (hw.unchanged hu) (hI' hu) hC
  have g₅ := g₄.orTry h₅ fun C hu hC => tactic_T3_spec (hw.unchanged hu) (hI' hu) hT hC
  have g := g₅.orTry h fun C hu hC => tactic_B0_spec (hw.unchanged hu) hT hC
  exact ⟨r₀, r₁, r₂, r₃, r₄, r₅, ⟨h₀, g₀⟩, ⟨h₁, g₁⟩, ⟨h₂, g₂⟩, ⟨h₃, g₃⟩, ⟨h₄, g₄⟩, ⟨h₅, g₅⟩, h, g⟩

/-- No patch is of B0 before that tactic is tried, which comes last. -/
theorem tactics_before (hw : WellFormed B) (hI : I < B.count) (hT : T ≠ evicteeTrampoline)
    (h : tactics I T B = .ok r) : ∃ r', AllOrNothing I T B r' ∧ (∀ P ∈ r'.2.head?, P.tactic ≠ .B0) ∧
      orTry r' (tactic_B0 I T) = .ok r := by
  obtain ⟨r₀, r₁, r₂, r₃, r₄, r₅, ⟨h₀, -⟩, ⟨h₁, -⟩, ⟨h₂, -⟩, ⟨h₃, -⟩, ⟨h₄, -⟩, ⟨h₅, g₅⟩, h, -⟩ :=
    tactics_tried hw hI hT h
  refine ⟨r₅, g₅, ?_, h⟩
  have hstep : ∀ {s s' : Binary × List Patch} {f tactic}, tactic ≠ Tactic.B0 →
      (∀ P ∈ s.2.head?, P.tactic ≠ .B0) → orTry s f = .ok s' → (∀ {C t}, f C = .ok t → Headed tactic t) →
      ∀ P ∈ s'.2.head?, P.tactic ≠ .B0 := by
    intro s s' f tactic hne hs h hf P hP
    rcases orTry_cases h with ⟨-, rfl⟩ | ⟨-, h⟩
    · exact hs P hP
    · rwa [hf h P hP]
  have e₀ : ∀ P ∈ r₀.2.head?, P.tactic ≠ .B0 := fun P hP => by
    rw [tactic_T0_headed h₀ P hP]
    decide
  have e₁ := hstep (by decide) e₀ h₁ tactic_B1_headed
  have e₂ := hstep (by decide) e₁ h₂ tactic_B2_headed
  have e₃ := hstep (by decide) e₂ h₃ tactic_T1_headed
  have e₄ := hstep (by decide) e₃ h₄ tactic_T2_headed
  exact hstep (by decide) e₄ h₅ tactic_T3_headed

theorem tactics_spec (hw : WellFormed B) (hI : I < B.count) (hT : T ≠ evicteeTrampoline)
    (h : tactics I T B = .ok r) : AllOrNothing I T B r := by
  obtain ⟨_, _, _, _, _, _, -, -, -, -, -, -, -, g⟩ := tactics_tried hw hI hT h
  exact g

/-- `patch` leaves the binary as it is where the tactics fail, and else makes a record of their patches. -/
theorem patch_cases {B' : Binary} {o : Option Tactic} (hw : WellFormed B) (hI : I < B.count)
    (hT : T ≠ evicteeTrampoline) (h : Binary.patch I T B = .ok (B', o)) :
    ∃ r, tactics I T B = .ok r ∧
      ((r.2 = [] ∧ Unchanged B r.1 ∧ B' = r.1 ∧ o = none) ∨
        ∃ P Ps, r.2 = P :: Ps ∧ Success I T B r.1 (P :: Ps) ∧ B' = r.1.commit (P :: Ps) ∧ o = some P.tactic) := by
  unfold Binary.patch at h
  split at h
  · cases h
  obtain ⟨r, hr, h⟩ := bind_ok.mp h
  refine ⟨r, hr, ?_⟩
  have hspec := tactics_spec hw hI hT hr
  split at h
  · rename_i hnil
    cases h
    rcases hspec with ⟨-, hu⟩ | ⟨hne, -⟩
    · exact Or.inl ⟨hnil, hu, rfl, rfl⟩
    · exact absurd hnil hne
  · rename_i P Ps hP
    cases h
    rcases hspec with ⟨hnil, -⟩ | ⟨-, hs⟩
    · rw [hP] at hnil
      cases hnil
    · rw [hP] at hs ⊢
      exact Or.inr ⟨P, Ps, rfl, hs, rfl, rfl⟩

end

end E9Patch
