import E9Patch.PatchTheorems
import E9Patch.PatchTouches

/-!
T3 on an instruction of one byte. The rel8 of its short jump is the first byte of the successor as it
stands. A jump changes bytes from its own instruction on only, and behind that instruction without a gap,
so that the byte keeps its value, unless the host of the jump is the successor itself and is evicted.
-/

namespace E9Patch
open Bytes Binary Fallible

/-! ### Where jumps reach -/

/-- What jumps in `J` change: nothing before `J`, and behind it no byte whose neighbour is left open. -/
structure Spreads (J : Nat) (B B' : Binary) : Prop where
  evolves : Evolves B B'
  allocates : B.Allocates → B'.Allocates
  offset : (B'.Is J).offset = (B.Is J).offset
  size : (B'.Is J).size = (B.Is J).size
  before : ∀ q < (B.Is J).offset, B'.cell q = B.cell q
  behind : ∀ q, (B.Is J).offset + (B.Is J).size ≤ q → B'.cell (q + 1) ≠ B.cell (q + 1) →
    Protected (B'.state q)

theorem Spreads.trans {J : Nat} {B B' B'' : Binary} (h : Spreads J B B') (h' : Spreads J B' B'') :
    Spreads J B B'' := by
  refine ⟨h.evolves.trans h'.evolves, h'.allocates ∘ h.allocates, h'.offset.trans h.offset, h'.size.trans h.size, fun q hq => ?_,
    fun q hq hne => ?_⟩
  · rw [h'.before q (by rwa [h.offset]), h.before q hq]
  · by_cases he : B''.cell (q + 1) = B'.cell (q + 1)
    · rw [he] at hne
      exact ((h'.evolves q).guarded (h.behind q hq hne)).2
    · exact h'.behind q (by rwa [h.offset, h.size]) he

/-- No byte changes. -/
theorem Spreads.of_cells {J : Nat} {B B' : Binary} (ha : B.Allocates → B'.Allocates)
    (hoff : (B'.Is J).offset = (B.Is J).offset) (hsize : (B'.Is J).size = (B.Is J).size)
    (hc : ∀ q, B'.cell q = B.cell q) : Spreads J B B' :=
  ⟨fun q => by rw [hc]; exact .refl _, ha, hoff, hsize, fun q _ => hc q,
    fun q _ hne => absurd (hc _) hne⟩

theorem Spreads.refl (J : Nat) (B : Binary) : Spreads J B B := .of_cells id rfl rfl fun _ => rfl

/-- A write within `J`. -/
theorem Spreads.of_inside {J : Nat} {B B' : Binary} (hr : Rewrites B B') (he : Evolves B B')
    (hc : ∀ q, ¬B.Inside J q → B'.cell q = B.cell q) : Spreads J B B' := by
  refine ⟨he, fun h => by rwa [hr], by rw [hr.Is], by rw [hr.Is], fun q hq => hc q ?_, fun q hq hne => absurd (hc _ ?_) hne⟩
  · simp only [Inside]
    omega
  · simp only [Inside]
    omega

theorem JumpWritten.spreads {B B' : Binary} {J offset : Nat} {entry : Int}
    (h : JumpWritten B B' J offset entry) : Spreads J B B' := by
  have hin := h.inside
  refine ⟨h.evolves, fun ha => by rwa [h.rewrites], by rw [h.rewrites.Is], by rw [h.rewrites.Is],
    fun q hq => h.other q (by omega),
    fun q hq hne => ?_⟩
  -- the byte behind is within the jump, and so is the one before it
  have hlt : q + 1 < (B.Is J).offset + offset + 5 := by
    by_contra hge
    exact hne (h.other _ (by omega))
  have := (h.rel32 (q - ((B.Is J).offset + (offset + 1))) (by omega)).protected
  rwa [cell_snd, show (B.Is J).offset + (offset + 1) + (q - ((B.Is J).offset + (offset + 1))) = q
    from by omega] at this

theorem newPatch_spreads (B : Binary) (J : Nat) (tactic : Tactic) (A : Option Nat) :
    Spreads J B (B.newPatch J tactic A).1 := by
  refine .of_cells id ?_ ?_ fun q => newPatch_cell ..
  · rw [newPatch_Is, if_pos rfl]
  · rw [newPatch_Is, if_pos rfl]

theorem Allocated.spreads {B B' : Binary} {A J : Nat} {T : Trampoline} {I : Option Nat}
    (h : Allocated B B' A T I) : Spreads J B B' := by
  have hIs : B'.Is = B.Is := by rw [h.binary]
  exact .of_cells (fun _ => h.progress.allocates) (by rw [hIs]) (by rw [hIs]) h.cell

section
variable {B : Binary} {J : Nat} {T : Trampoline} {tactic : Tactic} {r : Binary × List Patch}

theorem applyJump_spreads {D : Binary} {A pre : Nat} {P : Patch}
    (h : B.applyJump J tactic A pre = .ok (D, P)) : Spreads J B D := by
  obtain ⟨h', -⟩ := applyJump_ok h
  obtain ⟨A', -, hwritten⟩ := patchJump_spec h'
  exact (newPatch_spreads B J tactic (some A)).trans hwritten.spreads

theorem tactic_B1_spreads (hB : B.Allocates) (h : tactic_B1 J T tactic B = .ok r) : Spreads J B r.1 := by
  unfold tactic_B1 at h
  split at h
  · cases h
    exact .refl J B
  · obtain ⟨o, ho, h⟩ := bind_ok.mp h
    cases o with
    | none =>
        cases h
        exact .refl J B
    | some o =>
        obtain ⟨B₁, A⟩ := o
        obtain ⟨⟨D, Q⟩, hD, h⟩ := bind_ok.mp h
        obtain ⟨E, hE, h⟩ := bind_ok.mp h
        cases h
        obtain ⟨-, hr, hc⟩ := patchUnused_spec hE
        have hunused : Spreads J D E := by
          refine .of_inside hr (patchUnused_evolves hE) fun q hq => ?_
          simp only [Inside] at hq
          rw [hc q, if_neg (by omega)]
        exact ((allocatePunnedJump_spec hB ho).1.spreads.trans (applyJump_spreads hD)).trans hunused

theorem tactic_B2_spreads (hB : B.Allocates) (h : tactic_B2 J T tactic B = .ok r) : Spreads J B r.1 := by
  unfold tactic_B2 at h
  split at h
  · cases h
    exact .refl J B
  · obtain ⟨o, ho, h⟩ := bind_ok.mp h
    cases o with
    | none =>
        cases h
        exact .refl J B
    | some o =>
        obtain ⟨B₁, A⟩ := o
        obtain ⟨⟨D, Q⟩, hD, h⟩ := bind_ok.mp h
        cases h
        exact (allocatePunnedJump_spec hB ho).1.spreads.trans (applyJump_spreads hD)

theorem tactic_T1Loop_spreads {pres : List Nat} (hB : B.Allocates)
    (h : tactic_T1Loop J T tactic B pres = .ok r) : Spreads J B r.1 := by
  induction pres with
  | nil =>
      cases h
      exact .refl J B
  | cons pre pres ih =>
      unfold tactic_T1Loop at h
      split at h
      · cases h
        exact .refl J B
      · obtain ⟨o, ho, h⟩ := bind_ok.mp h
        cases o with
        | none => exact ih h
        | some o =>
            obtain ⟨B₁, A⟩ := o
            obtain ⟨C, hC, h⟩ := bind_ok.mp h
            obtain ⟨D, hD, h⟩ := bind_ok.mp h
            cases h
            obtain ⟨-, hin, hr, -, hother⟩ := patchJumpPrefix_spec hC
            have hpre : Spreads J (B₁.newPatch J tactic (some A)).1 C := by
              refine .of_inside hr (patchJumpPrefix_evolves hC) fun q hq => hother q ?_
              simp only [Inside] at hq
              omega
            obtain ⟨A', -, hwritten⟩ := patchJump_spec hD
            exact (((allocatePunnedJump_spec hB ho).1.spreads.trans
              (newPatch_spreads B₁ J tactic (some A))).trans hpre).trans hwritten.spreads

theorem tactic_T1_spreads (hB : B.Allocates) (h : tactic_T1 J T tactic B = .ok r) : Spreads J B r.1 := by
  unfold tactic_T1 at h
  split at h
  · cases h
    exact .refl J B
  · exact tactic_T1Loop_spreads hB h

theorem Spreads.orTry {r' : Binary × List Patch} {f : Binary → Except Fault (Binary × List Patch)}
    (hB : B.Allocates) (hs : Spreads J B r.1) (h : orTry r f = .ok r')
    (hf : ∀ {C}, C.Allocates → f C = .ok r' → Spreads J C r'.1) : Spreads J B r'.1 := by
  unfold Binary.orTry at h
  split at h
  · exact hs.trans (hf (hs.allocates hB) h)
  · cases h
    exact hs

/-- The eviction of `J`. -/
theorem evict_spreads (hB : B.Allocates) (h : evict J tactic T B = .ok r) : Spreads J B r.1 := by
  unfold evict at h
  obtain ⟨r₁, h₁, h⟩ := bind_ok.mp h
  obtain ⟨r₂, h₂, h⟩ := bind_ok.mp h
  exact ((tactic_B1_spreads hB h₁).orTry hB h₂ tactic_B2_spreads).orTry hB h tactic_T1_spreads

/-- A jump that is placed in `J`: where the byte was free nothing before the jump changes, and otherwise
`J` is evicted. -/
theorem placeJump_spreads {I i A : Nat} {backward : Bool} {p : Binary × Option Nat × List Patch}
    (hw : WellFormed B) (hJ : J < B.count) (hT : T ≠ evicteeTrampoline)
    (h : placeJump I J i T backward B = .ok p) (hA : p.2.1 = some A) :
    Spreads J B p.1 ∧
      (B.STATE J i = STATE_FREE → ∀ q < (B.Is J).offset + i, p.1.cell q = B.cell q) ∧
      (B.STATE J i ≠ STATE_FREE → Redirects p.1 J evicteeTrampoline) := by
  unfold placeJump at h
  obtain ⟨B₀, hB₀⟩ : ∃ B₀, B₀ = if backward = true then B.setNoOptimize J true else B := ⟨_, rfl⟩
  simp only [← hB₀] at h
  have hp₀ : Progress B B₀ := by
    rw [hB₀]
    split
    · exact setNoOptimize_progress hw.allocates J true
    · exact .refl hw.allocates
  have hc₀ : ∀ q, B₀.cell q = B.cell q := fun q => by
    rw [hB₀]
    split <;> rfl
  have he₀ : ∀ k, (B₀.Is k).is_evicted = (B.Is k).is_evicted := by
    intro k
    rw [hB₀]
    split
    · rw [setNoOptimize_Is]
      by_cases hk : k = J
      · rw [if_pos hk, hk]
      · rw [if_neg hk]
    · rfl
  obtain ⟨ho₀, hs₀, -⟩ := (hp₀.instrs J).fields
  have hsp₀ : Spreads J B B₀ := .of_cells (fun _ => hp₀.allocates) ho₀ hs₀ hc₀
  have hw₀ : WellFormed B₀ := hw.evicts hp₀ (.of_flags fun k hk => by rwa [he₀] at hk)
  obtain ⟨o, ho, h⟩ := bind_ok.mp h
  cases o with
  | none =>
      cases h
      cases hA
  | some o =>
      obtain ⟨B₁, A₁⟩ := o
      obtain ⟨ha, hin⟩ := allocatePunnedJump_spec hw₀.allocates ho
      obtain ⟨⟨D, P⟩, hD, h⟩ := bind_ok.mp h
      simp only at h
      have hspD : Spreads J B D := (hsp₀.trans ha.spreads).trans (applyJump_spreads hD)
      have hbefore : ∀ q < (B.Is J).offset + i, D.cell q = B.cell q := by
        intro q hq
        obtain ⟨hD', -⟩ := applyJump_ok hD
        obtain ⟨A', -, hwritten⟩ := patchJump_spec hD'
        have hoff : ((B₁.newPatch J .T3 (some A₁)).1.Is J).offset = (B.Is J).offset := by
          rw [newPatch_Is, if_pos rfl, ha.binary]
          exact ho₀
        rw [hwritten.other q (by rw [newPatch_I, hoff]; omega), newPatch_cell, ha.cell, hc₀]
      split at h
      · rename_i hfree
        cases h
        exact ⟨hspD, fun _ => hbefore, fun hne => absurd hfree hne⟩
      · rename_i hfree
        obtain ⟨Q, hQ, h⟩ := bind_ok.mp h
        obtain ⟨hplaced, -⟩ := applyJump_placed ha hin hT hD
        have hwD := hw₀.evicts hplaced.progress hplaced.evicts
        have hJD : J < D.count := by rwa [hplaced.progress.count, hp₀.count]
        split at h
        · cases h
          cases hA
        · rename_i hne
          cases h
          refine ⟨hspD.trans (evict_spreads hwD.allocates hQ), fun hf => absurd hf hfree, fun _ => ?_⟩
          rcases evict_spec hwD hJD hQ with ⟨hnil, -⟩ | ⟨Q', -, hred⟩
          · exact absurd (by rw [hnil]; rfl) hne
          · exact hred.redirects

end

/-! ### The host -/

theorem skipForward_none (B : Binary) (target : Int) (fuel : Nat) :
    B.skipForward target fuel none = none := by
  cases fuel <;> rfl

theorem skipForward_le {B : Binary} (hw : WellFormed B) {target : Int} {fuel K J : Nat}
    (h : B.skipForward target fuel (some K) = some J) : J ≤ K := by
  induction fuel generalizing K with
  | zero =>
      cases h
      exact Nat.le_refl _
  | succ fuel ih =>
      unfold skipForward at h
      split at h
      · cases hn : B.next K with
        | none =>
            rw [hn, skipForward_none] at h
            cases h
        | some k =>
            rw [hn] at h
            have h1 := (next_some hw hn).1
            have h2 := ih h
            omega
      · cases h
        exact Nat.le_refl _

/-- The search ahead stops at once, or goes past the first instruction because it ends too early. -/
theorem skipForward_cases {B : Binary} (hw : WellFormed B) {target : Int} {fuel K J : Nat} (hf : 0 < fuel)
    (h : B.skipForward target fuel (some K) = some J) :
    (J = K ∧ target < (B.Is K).addr + (B.Is K).size) ∨
      (J < K ∧ (B.Is K).addr + (B.Is K).size ≤ target) := by
  obtain ⟨fuel, rfl⟩ : ∃ k, fuel = k + 1 := ⟨fuel - 1, by omega⟩
  unfold skipForward at h
  split at h
  · rename_i hle
    cases hn : B.next K with
    | none =>
        rw [hn, skipForward_none] at h
        cases h
    | some k =>
        rw [hn] at h
        have h1 := (next_some hw hn).1
        have h2 := skipForward_le hw h
        exact Or.inr ⟨by omega, hle⟩
  · cases h
    exact Or.inl ⟨rfl, by omega⟩

theorem skipBackward_gt {B : Binary} (hw : WellFormed B) {target : Int} {fuel I : Nat} {K : Option Nat}
    (hK : ∀ k ∈ K, I < k) {J : Nat} (h : B.skipBackward target fuel K = some J) : I < J := by
  induction fuel generalizing K with
  | zero => exact hK J h
  | succ fuel ih =>
      cases K with
      | none => cases h
      | some k =>
          unfold skipBackward at h
          split at h
          · refine ih (fun j hj => ?_) h
            have h1 := hK k rfl
            have h2 := (prev_some hw hj).1
            omega
          · exact hK J h

/-! ### The short jump -/

/-- Where the two bytes at `I` jump to, if the first is the opcode of a short jump. -/
def Binary.shortTarget (B : Binary) (I : Nat) : Int :=
  (B.Is I).addr + 2 + signed8 (B.bytes ((B.Is I).offset + 1)).toNat

/-- The jump is to be placed in the successor `K` itself, at a byte that is still an instruction's, so that
`K` is evicted. -/
def EvictsSuccessor (B : Binary) (I K : Nat) : Prop :=
  (B.Is K).addr ≤ B.shortTarget I ∧ B.shortTarget I < (B.Is K).addr + (B.Is K).size ∧
    B.STATE K (B.shortTarget I - (B.Is K).addr).toNat ≠ STATE_FREE

instance (B : Binary) (I K : Nat) : Decidable (EvictsSuccessor B I K) :=
  inferInstanceAs (Decidable (_ ∧ _ ∧ _))

/-- The tactic placed a jump to the trampoline, and the two bytes at `I` are a short jump to that jump and
stay one in all that follows; the second byte is locked. -/
def LandsOnJump (B B' : Binary) (I : Nat) (P : Patch) : Prop :=
  ∃ A J i, P.A = some A ∧ i < (B.Is J).size ∧ Jumps B' J i (B'.entry A) ∧
    (B.Is J).addr + (i : Nat) = B.shortTarget I ∧
    ∀ C, Runs B' C → C.bytes (B.Is I).offset = 0xEB ∧
      (B.Is I).addr + 2 + signed8 (C.bytes ((B.Is I).offset + 1)).toNat = (B.Is J).addr + (i : Nat) ∧
      Protected (C.state ((B.Is I).offset + 1))

/-- What the last part of T3b does to the bytes. -/
theorem patchSingleByte_cells {E B' : Binary} {I A K : Nat} {P : Patch} {Ps Qs : List Patch}
    (hE : E.Allocates) (hK : E.succ I = some K) (hne : (E.Is K).offset ≠ (E.Is I).offset)
    (h : E.patchSingleByte I A Qs = .ok (B', P :: Ps)) :
    P.A = some A ∧ E.STATE I 0 = STATE_INSTRUCTION ∧ B'.allocator = E.allocator ∧
      (∀ k, (B'.Is k).offset = (E.Is k).offset ∧ (B'.Is k).addr = (E.Is k).addr) ∧
      B'.cell (E.Is I).offset = (0xEB, STATE_PATCHED) ∧
      B'.cell (E.Is K).offset = ((E.cell (E.Is K).offset).1, (E.cell (E.Is K).offset).2.lock) ∧
      Evolves E B' := by
  unfold patchSingleByte at h
  obtain ⟨_, hs, h⟩ := bind_ok.mp h
  rw [assert_ok] at hs
  obtain ⟨K', hK', h⟩ := bind_ok.mp h
  rw [deref_ok] at hK'
  obtain ⟨C, hC⟩ : ∃ C, C = (E.newPatch I .T3 (some A)).1 := ⟨_, rfl⟩
  simp only [← hC] at h hs hK'
  have hp : Progress E C := hC ▸ newPatch_progress hE I .T3 (some A)
  have hf := fun k => (hp.instrs k).fields
  have hcell : ∀ q, C.cell q = E.cell q := fun q => by rw [hC, newPatch_cell]
  have hKK : K' = K := by
    have h1 := (Option.filter_eq_some_iff.mp ((hp.succ I).trans hK)).1
    have h2 : C.next I = some K' := hK'
    exact Option.some.inj (h2.symm.trans h1)
  subst hKK
  cases h
  have hunused : unused (C.state (C.Is I).offset) = true := by
    rw [show C.state (C.Is I).offset = STATE_INSTRUCTION from hs]
    decide
  obtain ⟨D, hD⟩ : ∃ D, D = C.write (C.Is I).offset 0xEB := ⟨_, rfl⟩
  have hev : Evolves C D := hD ▸ write_evolves hunused
  have hDI : ∀ k, (D.Is k).offset = (E.Is k).offset := fun k => by
    rw [hD]
    exact (hf k).1
  have hDcell : ∀ q, q ≠ (E.Is I).offset → D.cell q = E.cell q := fun q hq => by
    rw [hD, cell_write, if_neg (by rwa [(hf I).1]), hcell]
  simp only [← hD]
  refine ⟨rfl, ?_, by rw [hD, hC]; rfl, fun k => ⟨hDI k, by rw [hD]; exact (hf k).2.2⟩, ?_, ?_, ?_⟩
  · have : C.state (C.Is I).offset = STATE_INSTRUCTION := hs
    rw [(hf I).1] at this
    exact (congrArg Prod.snd (hcell _)).symm.trans this
  · rw [cell_setState, hDI K', if_neg fun he => hne he.symm, hD, cell_write, (hf I).1, if_pos rfl]
  · have hold := hDcell _ hne
    rw [cell_setState, hDI K', if_pos rfl, STATE, hDI K', Nat.add_zero]
    exact congrArg (fun c : Cell => (c.1, c.2.lock)) hold
  · exact hp.evolves.trans (hev.trans (lock_evolves D _))

/-- The jump that was placed is still there, and the short jump to it stays, if its second byte is what it
was. -/
theorem lands_of_byte {B E B' : Binary} {I J K A i : Nat} {T : Trampoline} {P : Patch} {Ps Qs : List Patch}
    (hi' : Invariant B') (hplaced : PlacedJump I J i T B E A) (hK : B.succ I = some K)
    (hoff : (B.Is K).offset = (B.Is I).offset + 1)
    (htarget : (B.Is J).addr + (i : Nat) = B.shortTarget I)
    (h : E.patchSingleByte I A Qs = .ok (B', P :: Ps))
    (hbyte : E.bytes ((B.Is I).offset + 1) = B.bytes ((B.Is I).offset + 1)) : LandsOnJump B B' I P := by
  have hf := fun k => (hplaced.progress.instrs k).fields
  have hne : (E.Is K).offset ≠ (E.Is I).offset := by
    rw [(hf K).1, (hf I).1, hoff]
    omega
  obtain ⟨hPA, -, halloc, hIs, hopcode, hrel8, hev⟩ :=
    patchSingleByte_cells hplaced.progress.allocates ((hplaced.progress.succ I).trans hK) hne h
  rw [(hf I).1] at hopcode
  rw [(hf K).1, hoff] at hrel8
  refine ⟨A, J, i, hPA, hplaced.inside, ?_, htarget, fun C hC => ?_⟩
  · have hentry : B'.entry A = E.entry A := by rw [entry, entry, alloc, alloc, halloc]
    rw [hentry]
    exact hplaced.jumps.evolves hev (hIs J).1 (hIs J).2
  · have heC := hC.evolves hi'
    have h0 : Protected (B'.state (B.Is I).offset) := by
      rw [show B'.state (B.Is I).offset = STATE_PATCHED from congrArg Prod.snd hopcode]
      exact Or.inl rfl
    have h1 : Protected (B'.state ((B.Is I).offset + 1)) := by
      rw [show B'.state ((B.Is I).offset + 1) = (E.state ((B.Is I).offset + 1)).lock
        from congrArg Prod.snd hrel8]
      exact Or.inr rfl
    have hb : C.bytes ((B.Is I).offset + 1) = B.bytes ((B.Is I).offset + 1) :=
      ((heC _).guarded h1).1.trans ((congrArg Prod.fst hrel8).trans hbyte)
    refine ⟨((heC _).guarded h0).1.trans (congrArg Prod.fst hopcode), ?_, ((heC _).guarded h1).2⟩
    rw [hb, htarget]
    rfl

/-- A byte of the evicted successor does not lead to the jump. -/
theorem not_lands_of_evicted {B E B' : Binary} {I J K A i : Nat} {T : Trampoline} {P : Patch}
    {Ps Qs : List Patch} (hplaced : PlacedJump I J i T B E A) (hK : B.succ I = some K)
    (hoff : (B.Is K).offset = (B.Is I).offset + 1) (hsize : (B.Is K).size ≤ 15)
    (haddr : (B.Is K).addr = (B.Is I).addr + 1) (hev : EvictsSuccessor B I K)
    (h : E.patchSingleByte I A Qs = .ok (B', P :: Ps)) (hred : Redirects E K evicteeTrampoline) :
    ¬LandsOnJump B B' I P := by
  have hf := fun k => (hplaced.progress.instrs k).fields
  have hne : (E.Is K).offset ≠ (E.Is I).offset := by
    rw [(hf K).1, (hf I).1, hoff]
    omega
  obtain ⟨-, -, -, -, -, hrel8, -⟩ :=
    patchSingleByte_cells hplaced.progress.allocates ((hplaced.progress.succ I).trans hK) hne h
  rw [(hf K).1, hoff] at hrel8
  -- the first byte of the successor is that of a jump or of its prefix
  have hfirst : B'.bytes ((B.Is I).offset + 1) = 0xE9 ∨ B'.bytes ((B.Is I).offset + 1) = 0x48 := by
    rw [show B'.bytes ((B.Is I).offset + 1) = E.bytes ((B.Is I).offset + 1) from congrArg Prod.fst hrel8]
    obtain ⟨A', pre, -, -, -, -, hpre, hjumps⟩ := hred
    cases pre with
    | zero =>
        have := hjumps.opcode
        rw [PATCH, (hf K).1, hoff] at this
        exact Or.inl this
    | succ pre =>
        have := (hpre 0 (by omega)).1
        rw [PATCH, (hf K).1, hoff] at this
        exact Or.inr this
  rintro ⟨A', J', i', -, -, -, htarget, hall⟩
  obtain ⟨-, hlands, -⟩ := hall B' .refl
  obtain ⟨h1, h2, -⟩ := hev
  rcases hfirst with h0 | h0 <;> rw [h0] at hlands
  · have : signed8 ((0xE9 : UInt8).toNat : Int) = -23 := by decide
    omega
  · have : signed8 ((0x48 : UInt8).toNat : Int) = 72 := by decide
    omega

/-- **T3b.** The two bytes lead to the jump that the tactic placed, and stay, exactly if the successor is not
evicted for it; the successor's own bytes follow those of the instruction. -/
theorem tactic_T3b_lands {B B' : Binary} {I : Nat} {T : Template} {P : Patch} {Ps : List Patch}
    (hi : Invariant B) (hI : I < B.count) (h : tactic_T3b I (.user T) B = .ok (B', P :: Ps)) :
    ∃ K, B.succ I = some K ∧ (¬EvictsSuccessor B I K → LandsOnJump B B' I P) ∧
      ((B.Is K).addr = (B.Is I).addr + 1 → (LandsOnJump B B' I P ↔ ¬EvictsSuccessor B I K)) := by
  have hw := hi.wellFormed
  have hstep : Step B B' := .tactic (B', P :: Ps) (.T3b I T hI h)
  have hi' : Invariant B' := hstep.invariant hi
  unfold tactic_T3b at h
  split at h
  · cases h
  rename_i hcond
  rw [not_or, not_not] at hcond
  split at h
  · cases h
  rename_i K hK
  obtain ⟨hKI, hKc, hKoff⟩ := succ_some hw hK
  rw [hcond.1] at hKoff
  split at h
  · cases h
  simp only at h
  split at h
  · cases h
  have htarget : (B.Is I).addr + 2 + signed8 (B.PATCH K 0).toNat = B.shortTarget I := by
    simp only [shortTarget, PATCH, Nat.add_zero, hKoff]
  rw [htarget] at h
  split at h
  · cases h
  rename_i J hJ
  split at h
  · cases h
  rename_i hhost
  rw [not_or, not_le] at hhost
  split at h
  · rename_i hs
    obtain ⟨p, hp, h⟩ := bind_ok.mp h
    refine ⟨K, hK, ?_⟩
    have hi0 : ((B.shortTarget I - (B.Is J).addr).toNat : Int) = B.shortTarget I - (B.Is J).addr := by
      omega
    obtain ⟨i, hgen⟩ : ∃ i, (B.shortTarget I - (B.Is J).addr).toNat = i := ⟨_, rfl⟩
    rw [hgen] at hi0 hs hp
    have hJc : J < B.count := by
      split at hJ
      · exact skipForward_lt hw (fun j hj => by cases hj; exact hKc) hJ
      · exact skipBackward_lt hw (fun j hj => (prev_some hw hj).2) hJ
    have hT := user_ne_evictee T
    rcases placeJump_spec hw hJc hT hs hp with ⟨hnil, -⟩ | ⟨A, hA, hplaced⟩
    · simp only [hnil] at h
      cases h
    simp only [hA] at h
    obtain ⟨hspreads, hfree, hevict⟩ := placeJump_spreads hw hJc hT hp hA
    have hKaddr := hw.addrs K I (by omega) hI
    rw [hcond.1] at hKaddr
    have hside : (J = K ∧ B.shortTarget I < (B.Is K).addr + (B.Is K).size) ∨
        (J < K ∧ (B.Is K).addr + (B.Is K).size ≤ B.shortTarget I) ∨
        (I < J ∧ B.shortTarget I < (B.Is I).addr) := by
      split at hJ
      · exact (skipForward_cases hw (by omega) hJ).imp id Or.inl
      · refine Or.inr (Or.inr ⟨skipBackward_gt hw (fun j hj => ?_) hJ, by omega⟩)
        have := (prev_some hw hj).1
        omega
    -- the successor is evicted exactly if it is the host
    have hhostK : EvictsSuccessor B I K ↔ J = K ∧ B.STATE K i ≠ STATE_FREE := by
      constructor
      · rintro ⟨h1, h2, h3⟩
        obtain ⟨rfl, -⟩ | ⟨-, hend⟩ | ⟨-, hback⟩ := hside
        · exact ⟨rfl, by rwa [hgen] at h3⟩
        · omega
        · omega
      · rintro ⟨rfl, hstate⟩
        obtain ⟨-, hlt⟩ | ⟨hlt, -⟩ | ⟨hlt, -⟩ := hside
        · exact ⟨by omega, hlt, by rwa [hgen]⟩
        · omega
        · omega
    have hnot : ¬EvictsSuccessor B I K → LandsOnJump B B' I P := by
      intro hev
      refine lands_of_byte hi' hplaced hK hKoff.symm (by omega) h ?_
      rw [hhostK, not_and_not_right] at hev
      refine congrArg Prod.fst (?_ : p.1.cell ((B.Is I).offset + 1) = B.cell ((B.Is I).offset + 1))
      obtain ⟨rfl, -⟩ | ⟨hlt, -⟩ | ⟨hlt, -⟩ := hside
      · exact hfree (hev rfl) _ (by omega)
      · have h1 := hw.offsets J K hlt hKc
        have h2 := (hw.size K hKc).1
        exact hspreads.before _ (by omega)
      · -- a jump from behind would have closed the instruction itself
        by_contra hne
        have hoff := hw.offsets I J hlt hJc
        have hprot := hspreads.behind _ hoff hne
        have hf := fun k => (hplaced.progress.instrs k).fields
        have hneK : (p.1.Is K).offset ≠ (p.1.Is I).offset := by
          rw [(hf K).1, (hf I).1]
          omega
        obtain ⟨-, hstate, -⟩ :=
          patchSingleByte_cells hplaced.progress.allocates ((hplaced.progress.succ I).trans hK) hneK h
        rw [STATE, (hf I).1] at hstate
        rw [show p.1.state (B.Is I).offset = STATE_INSTRUCTION from hstate] at hprot
        revert hprot
        decide
    refine ⟨hnot, fun haddr => ⟨fun hlands hev => ?_, hnot⟩⟩
    obtain ⟨rfl, hstate⟩ := hhostK.mp hev
    exact not_lands_of_evicted hplaced hK hKoff.symm (hw.size J hKc).2 haddr hev h (hevict hstate) hlands
  · cases h

/-! ### Sample runs -/

/-- A `push` behind a `nop`, a successor of `size` bytes, an instruction of four and a `retq`. The address
that a punned jump at the `push` would go to is reserved. -/
def shortMessages (bytes : List UInt8) (size : Nat) : Except Fault Binary := do
  let file : File := { sampleFile with bytes := fun p => byteAt bytes p }
  let B ← parseBinary file .ELF_EXE defaultOptions none
  [.reserve [] [0x48400000] [] [0x1100000], .instruction [0x400006 + (size : Int)] [1] [6 + (size : Int)],
    .instruction [0x400002 + (size : Int)] [4] [2 + (size : Int)],
    .instruction [0x400002] [(size : Int)] [2], .instruction [0x400001] [1] [1],
    .patch [sampleTemplate] [1] []].foldlM parseMessage B

/-- The `push` is taken off the queue. -/
def shortRun (bytes : List UInt8) (size : Nat) : Except Fault Binary := do
  let B ← shortMessages bytes size
  unqueue 3 B

theorem short_reachable {bytes : List UInt8} {size : Nat} {B : Binary}
    (hc : (shortMessages bytes size).toOption.map (·.count) = some 4) (h : shortRun bytes size = .ok B) :
    Reachable B := by
  obtain ⟨B₁, h₁, h⟩ := bind_ok.mp h
  rw [h₁] at hc
  have hcount : B₁.count = 4 := Option.some.inj hc
  obtain ⟨B₀, h₀, h₁⟩ := bind_ok.mp h₁
  exact (reachable_of_messages h₀ h₁).step (.dequeue 3 (by omega) h)

/-- The successor is `add $0x80000000,%eax`: the jump is placed in the instruction behind it. -/
def hitBinary : Binary :=
  (shortRun [0x90, 0x55, 0x05, 0, 0, 0, 0x80, 0x48, 0x89, 0x04, 0x24, 0xc3] 5).toOption.getD
    (newBinary sampleFile .ELF_EXE defaultOptions)

/-- The successor is `add %eax,0x10(%rax)`: its first byte, as a rel8, leads into its last one. -/
def missBinary : Binary :=
  (shortRun [0x90, 0x55, 0x01, 0x40, 0x10, 0x48, 0x89, 0x04, 0x24, 0xc3] 3).toOption.getD
    (newBinary sampleFile .ELF_EXE defaultOptions)

theorem hit_reachable : Reachable hitBinary :=
  short_reachable (by decide +kernel) (ok_getD (by decide +kernel))

theorem miss_reachable : Reachable missBinary :=
  short_reachable (by decide +kernel) (ok_getD (by decide +kernel))

/-- A success, taken apart. -/
theorem patched_of_head {x : Except Fault (Binary × List Patch)} {b : UInt8}
    (h : x.toOption.bind (fun r => r.2.head?.map fun _ => r.1.bytes 2) = some b) :
    ∃ B' P Ps, x = .ok (B', P :: Ps) ∧ B'.bytes 2 = b := by
  cases x with
  | error e => cases h
  | ok r =>
      obtain ⟨B', Ps⟩ := r
      cases Ps with
      | nil => cases h
      | cons P Ps => exact ⟨B', P, Ps, rfl, Option.some.inj h⟩

/-- The `push` before the longer `add` leads to its jump. -/
theorem hit_lands : ∃ B' P Ps, tactic_T3b 3 (.user sampleTemplate) hitBinary = .ok (B', P :: Ps) ∧
    LandsOnJump hitBinary B' 3 P := by
  obtain ⟨B', P, Ps, h, -⟩ : ∃ B' P Ps, tactic_T3b 3 (.user sampleTemplate) hitBinary = .ok (B', P :: Ps) ∧
      B'.bytes 2 = 0x05 := patched_of_head (by decide +kernel)
  obtain ⟨K, hK, hlands, -⟩ := tactic_T3b_lands hit_reachable.invariant (by decide +kernel) h
  obtain rfl : K = 2 := by
    have hsucc : hitBinary.succ 3 = some 2 := by decide +kernel
    exact Option.some.inj (hK.symm.trans hsucc)
  exact ⟨B', P, Ps, h, hlands (by decide +kernel)⟩

/-- The `push` before the shorter `add` does not: the eviction of the `add` writes the opcode of a jump
over its first byte, and the short jump leads 24 bytes back from where it did. -/
theorem miss_not_lands : ∃ B' P Ps,
    tactic_T3b 3 (.user sampleTemplate) missBinary = .ok (B', P :: Ps) ∧
      ¬LandsOnJump missBinary B' 3 P := by
  obtain ⟨B', P, Ps, h, hbyte⟩ : ∃ B' P Ps,
      tactic_T3b 3 (.user sampleTemplate) missBinary = .ok (B', P :: Ps) ∧ B'.bytes 2 = 0xE9 :=
    patched_of_head (by decide +kernel)
  refine ⟨B', P, Ps, h, ?_⟩
  rintro ⟨A, J, i, -, -, -, htarget, hall⟩
  obtain ⟨-, hlands, -⟩ := hall B' .refl
  have hoff : (missBinary.Is 3).offset + 1 = 2 := by decide +kernel
  have hshort : missBinary.shortTarget 3 = (missBinary.Is 3).addr + 3 := by decide +kernel
  have hrel8 : signed8 ((0xE9 : UInt8).toNat : Int) = -23 := by decide
  rw [hoff, hbyte, hrel8] at hlands
  omega

end E9Patch
