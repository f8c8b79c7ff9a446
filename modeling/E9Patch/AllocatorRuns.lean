import E9Patch.ReserveTheorems

/-!
Invariants of the allocator over runs. The tactics, the messages and the undoing of patches change the tree by its
own calls only, so that a property of trees that these calls keep holds in every state that a run reaches. One such
property is that no record has its entry outside.
-/

namespace E9Patch
open Bytes Binary Fallible PtrTree

/-! ### Properties that the calls keep -/

/-- The calls of the allocator keep the property. -/
structure CallsKeep (P : Tree Trampoline Nat → Prop) : Prop where
  allocate : ∀ {order : Bool} {t t' : Tree Trampoline Nat} {lb ub : Int} {presize : Nat} {tmpsize : Int}
    {T : Option Trampoline} {I : Option Nat} {same_page : Bool} {n : Nat},
    t.allocate checked order lb ub presize tmpsize T I same_page = .ok (some (t', n)) → P t → P t'
  reserve : ∀ {t t' : Tree Trampoline Nat} {lb ub : Int} {n : Nat}, t.reserve checked lb ub = .ok (some (t', n)) → P t → P t'
  remove : ∀ {t : Tree Trampoline Nat} (n : Nat), P t → P (t.remove n)

section
variable {P : Tree Trampoline Nat → Prop} {B : Binary} {I : Nat} {T : Trampoline} {tactic : Tactic}

theorem undo_keeps (hP : CallsKeep P) (Ps : List Patch) (h : P B.allocator) : P (B.undo Ps).allocator := by
  induction Ps generalizing B with
  | nil => exact h
  | cons p Ps ih =>
      apply ih
      unfold undoPatch Tree.deallocate
      cases p.A with
      | none => exact h
      | some A => exact hP.remove A h

theorem allocate_keeps (hP : CallsKeep P) {B' : Binary} {lb ub : Int} {J : Option Nat} {same_page : Bool} {A : Nat}
    (ha : B.allocate lb ub T J same_page = .ok (some (B', A))) (h : P B.allocator) : P B'.allocator := by
  obtain ⟨presize, tmpsize, t, -, -, ht, rfl⟩ := allocate_inv ha
  exact hP.allocate ht h

theorem allocatePunnedJump_keeps (hP : CallsKeep P) {B' : Binary} {pre J A : Nat}
    (ha : B.allocatePunnedJump I pre J T = .ok (some (B', A))) (h : P B.allocator) : P B'.allocator := by
  unfold allocatePunnedJump at ha
  split at ha
  · cases ha
  · obtain ⟨b, -, ha⟩ := bind_ok.mp ha
    exact allocate_keeps hP ha h

theorem Rewrites.allocator {B B' : Binary} (h : Rewrites B B') : B'.allocator = B.allocator := by rw [h]

theorem patchJump_allocator {B' : Binary} {p : Patch} {offset : Nat} (h : B.patchJump p offset = .ok B') :
    B'.allocator = B.allocator := by
  obtain ⟨A, -, hw⟩ := patchJump_spec h
  exact hw.rewrites.allocator

theorem applyJump_allocator {D : Binary} {A pre : Nat} {p : Patch} (h : B.applyJump I tactic A pre = .ok (D, p)) :
    D.allocator = B.allocator := by
  obtain ⟨hD, -⟩ := applyJump_ok h
  rw [patchJump_allocator hD, newPatch_allocator]

theorem patchUnused_allocator {B' : Binary} {offset : Nat} (h : B.patchUnused I offset = .ok B') :
    B'.allocator = B.allocator := (patchUnused_spec h).2.1.allocator

/-! ### The tactics -/

theorem tactic_B0_keeps (hP : CallsKeep P) {r : Binary × List Patch} (h : tactic_B0 I T B = .ok r)
    (hB : P B.allocator) : P r.1.allocator := by
  unfold tactic_B0 at h
  split at h
  · cases h
    exact hB
  · obtain ⟨o, ho, h⟩ := bind_ok.mp h
    cases o with
    | none =>
        cases h
        exact hB
    | some o =>
        obtain ⟨C, hC, h⟩ := bind_ok.mp h
        obtain ⟨D, hD, h⟩ := bind_ok.mp h
        cases h
        have hCB : C.allocator = o.1.allocator := by
          unfold patchTrap at hC
          obtain ⟨_, -, hC⟩ := bind_ok.mp hC
          cases hC
          rfl
        rw [patchUnused_allocator hD, hCB]
        obtain ⟨b, -, ho⟩ := bind_ok.mp ho
        exact allocate_keeps hP ho hB

theorem tactic_B1_keeps (hP : CallsKeep P) {r : Binary × List Patch} (h : tactic_B1 I T tactic B = .ok r)
    (hB : P B.allocator) : P r.1.allocator := by
  unfold tactic_B1 at h
  split at h
  · cases h
    exact hB
  · obtain ⟨o, ho, h⟩ := bind_ok.mp h
    cases o with
    | none =>
        cases h
        exact hB
    | some o =>
        obtain ⟨⟨D, p⟩, hD, h⟩ := bind_ok.mp h
        obtain ⟨E, hE, h⟩ := bind_ok.mp h
        cases h
        rw [patchUnused_allocator hE, applyJump_allocator hD]
        exact allocatePunnedJump_keeps hP ho hB

theorem tactic_B2_keeps (hP : CallsKeep P) {r : Binary × List Patch} (h : tactic_B2 I T tactic B = .ok r)
    (hB : P B.allocator) : P r.1.allocator := by
  unfold tactic_B2 at h
  split at h
  · cases h
    exact hB
  · obtain ⟨o, ho, h⟩ := bind_ok.mp h
    cases o with
    | none =>
        cases h
        exact hB
    | some o =>
        obtain ⟨⟨D, p⟩, hD, h⟩ := bind_ok.mp h
        cases h
        rw [applyJump_allocator hD]
        exact allocatePunnedJump_keeps hP ho hB

theorem tactic_T1Loop_keeps (hP : CallsKeep P) {pres : List Nat} {r : Binary × List Patch}
    (h : tactic_T1Loop I T tactic B pres = .ok r) (hB : P B.allocator) : P r.1.allocator := by
  induction pres with
  | nil =>
      cases h
      exact hB
  | cons pre pres ih =>
      unfold tactic_T1Loop at h
      split at h
      · cases h
        exact hB
      · obtain ⟨o, ho, h⟩ := bind_ok.mp h
        cases o with
        | none => exact ih h
        | some o =>
            obtain ⟨C, hC, h⟩ := bind_ok.mp h
            obtain ⟨D, hD, h⟩ := bind_ok.mp h
            cases h
            obtain ⟨-, -, hr, -⟩ := patchJumpPrefix_spec hC
            rw [patchJump_allocator hD, hr.allocator, newPatch_allocator]
            exact allocatePunnedJump_keeps hP ho hB

theorem tactic_T1_keeps (hP : CallsKeep P) {r : Binary × List Patch} (h : tactic_T1 I T tactic B = .ok r)
    (hB : P B.allocator) : P r.1.allocator := by
  unfold tactic_T1 at h
  split at h
  · cases h
    exact hB
  · exact tactic_T1Loop_keeps hP h hB

theorem orTry_keeps {r r' : Binary × List Patch} {f : Binary → Except Fault (Binary × List Patch)}
    (h : orTry r f = .ok r') (hr : P r.1.allocator) (hf : ∀ C, P C.allocator → f C = .ok r' → P r'.1.allocator) :
    P r'.1.allocator := by
  unfold orTry at h
  split at h
  · exact hf _ hr h
  · cases h
    exact hr

theorem evict_keeps (hP : CallsKeep P) {r : Binary × List Patch} (h : evict I tactic T B = .ok r)
    (hB : P B.allocator) : P r.1.allocator := by
  obtain ⟨r₁, h₁, h⟩ := bind_ok.mp h
  obtain ⟨r₂, h₂, h⟩ := bind_ok.mp h
  have hr₁ := tactic_B1_keeps hP h₁ hB
  have hr₂ := orTry_keeps h₂ hr₁ fun C hC hf => tactic_B2_keeps hP hf hC
  exact orTry_keeps h hr₂ fun C hC hf => tactic_T1_keeps hP hf hC

theorem tactic_T2_keeps (hP : CallsKeep P) {r : Binary × List Patch} (h : tactic_T2 I T B = .ok r)
    (hB : P B.allocator) : P r.1.allocator := by
  unfold tactic_T2 at h
  split at h
  · cases h
    exact hB
  · split at h
    · cases h
      exact hB
    · split at h
      · cases h
        exact hB
      · obtain ⟨Q₁, hQ₁, h⟩ := bind_ok.mp h
        obtain ⟨Q, hQ, h⟩ := bind_ok.mp h
        have hQP := orTry_keeps hQ (tactic_B2_keeps hP hQ₁ hB) fun C hC hf => tactic_T1_keeps hP hf hC
        split at h
        · cases h
          exact hQP
        · obtain ⟨P₁, hP₁, h⟩ := bind_ok.mp h
          obtain ⟨P₂, hP₂, h⟩ := bind_ok.mp h
          have hPP := orTry_keeps hP₂ (tactic_B2_keeps hP hP₁ hQP) fun C hC hf => tactic_T1_keeps hP hf hC
          split at h
          · cases h
            exact undo_keeps hP _ hPP
          · cases h
            exact hPP

theorem placeJump_keeps (hP : CallsKeep P) {J i : Nat} {backward : Bool} {r : Binary × Option Nat × List Patch}
    (h : placeJump I J i T backward B = .ok r) (hB : P B.allocator) : P r.1.allocator := by
  unfold placeJump at h
  simp only at h
  obtain ⟨o, ho, h⟩ := bind_ok.mp h
  have hB' : P (if backward then B.setNoOptimize J true else B).allocator := by
    split
    · exact hB
    · exact hB
  cases o with
  | none =>
      cases h
      exact hB'
  | some o =>
      obtain ⟨⟨C, p⟩, hC, h⟩ := bind_ok.mp h
      have hPC : P C.allocator := by
        rw [applyJump_allocator hC]
        exact allocatePunnedJump_keeps hP ho hB'
      simp only at h
      split at h
      · cases h
        exact hPC
      · obtain ⟨Q, hQ, h⟩ := bind_ok.mp h
        have hPQ := evict_keeps hP hQ hPC
        split at h
        · cases h
          exact undo_keeps hP [p] hPQ
        · cases h
          exact hPQ

theorem tactic_T3b_keeps (hP : CallsKeep P) {r : Binary × List Patch} (h : tactic_T3b I T B = .ok r)
    (hB : P B.allocator) : P r.1.allocator := by
  unfold tactic_T3b at h
  split at h
  · cases h
    exact hB
  split at h
  · cases h
    exact hB
  split at h
  · cases h
    exact hB
  simp only at h
  split at h
  · cases h
    exact hB
  split at h
  · cases h
    exact hB
  split at h
  · cases h
    exact hB
  split at h
  · obtain ⟨R, hR, h⟩ := bind_ok.mp h
    have hPR := placeJump_keeps hP hR hB
    split at h
    · cases h
      exact hPR
    · obtain ⟨_, -, h⟩ := bind_ok.mp h
      obtain ⟨K, -, h⟩ := bind_ok.mp h
      cases h
      exact hPR
  · cases h
    exact hB

theorem tactic_T3Bytes_keeps (hP : CallsKeep P) {J : Nat} {is : List Nat}
    {r : Binary × Option (Nat × Int) × List Patch} (h : tactic_T3Bytes I J T B is = .ok r) (hB : P B.allocator) :
    P r.1.allocator := by
  induction is generalizing B with
  | nil =>
      cases h
      exact hB
  | cons i is ih =>
      unfold tactic_T3Bytes at h
      simp only at h
      split at h
      · exact ih h hB
      split at h
      · exact ih h hB
      split at h
      · cases h
        exact hB
      split at h
      · exact ih h hB
      split at h
      · obtain ⟨R, hR, h⟩ := bind_ok.mp h
        have hPR := placeJump_keeps hP hR hB
        split at h
        · exact ih h hPR
        · cases h
          exact hPR
      · exact ih h hB

theorem tactic_T3Loop_keeps (hP : CallsKeep P) {fuel : Nat} {J : Option Nat}
    {r : Binary × Option (Nat × Int) × List Patch} (h : tactic_T3Loop I T fuel J B = .ok r) (hB : P B.allocator) :
    P r.1.allocator := by
  induction fuel generalizing B J with
  | zero =>
      cases h
      exact hB
  | succ fuel ih =>
      cases J with
      | none =>
          cases h
          exact hB
      | some J =>
          unfold tactic_T3Loop at h
          split at h
          · exact ih h hB
          split at h
          · cases h
            exact hB
          split at h
          · cases h
            exact hB
          split at h
          · exact ih h hB
          obtain ⟨R, hR, h⟩ := bind_ok.mp h
          have hPR := tactic_T3Bytes_keeps hP hR hB
          split at h
          · exact ih h hPR
          · cases h
            exact hPR

theorem tactic_T3_keeps (hP : CallsKeep P) {r : Binary × List Patch} (h : tactic_T3 I T B = .ok r)
    (hB : P B.allocator) : P r.1.allocator := by
  unfold tactic_T3 at h
  split at h
  · exact tactic_T3b_keeps hP h hB
  split at h
  · cases h
    exact hB
  obtain ⟨R, hR, h⟩ := bind_ok.mp h
  have hPR := tactic_T3Loop_keeps hP hR hB
  split at h
  · cases h
    exact hPR
  · obtain ⟨C, hC, h⟩ := bind_ok.mp h
    obtain ⟨D, hD, h⟩ := bind_ok.mp h
    cases h
    obtain ⟨-, -, -, -, rfl⟩ := patchShortJump_spec hC
    rw [patchUnused_allocator hD]
    exact hPR

theorem freeBatch_allocator {J fuel : Nat} {K : Option Nat} {Ps : List Patch} {r : Binary × List Patch}
    (h : freeBatch J fuel K Ps B = .ok r) : r.1.allocator = B.allocator := by
  induction fuel generalizing B K Ps with
  | zero =>
      cases h
      rfl
  | succ fuel ih =>
      cases K with
      | none =>
          cases h
          rfl
      | some K =>
          unfold freeBatch at h
          split at h
          · cases h
            rfl
          · obtain ⟨C, hC, h⟩ := bind_ok.mp h
            rw [ih h, patchUnused_allocator hC, newPatch_allocator]

theorem tactic_T0_keeps (hP : CallsKeep P) {r : Binary × List Patch} (h : tactic_T0 I T B = .ok r)
    (hB : P B.allocator) : P r.1.allocator := by
  unfold tactic_T0 at h
  split at h
  · cases h
    exact hB
  simp only at h
  split at h
  · cases h
    exact hB
  obtain ⟨Ps, hPs, h⟩ := bind_ok.mp h
  obtain ⟨Q, hQ, h⟩ := bind_ok.mp h
  have hPQ := evict_keeps hP hQ (by
    rw [freeBatch_allocator hPs]
    exact hB)
  split at h
  · cases h
    exact undo_keeps hP _ hPQ
  · cases h
    exact hPQ

theorem tactics_keeps (hP : CallsKeep P) {r : Binary × List Patch} (h : tactics I T B = .ok r)
    (hB : P B.allocator) : P r.1.allocator := by
  obtain ⟨r₁, h₁, h⟩ := bind_ok.mp h
  obtain ⟨r₂, h₂, h⟩ := bind_ok.mp h
  obtain ⟨r₃, h₃, h⟩ := bind_ok.mp h
  obtain ⟨r₄, h₄, h⟩ := bind_ok.mp h
  obtain ⟨r₅, h₅, h⟩ := bind_ok.mp h
  obtain ⟨r₆, h₆, h⟩ := bind_ok.mp h
  have hr₂ := orTry_keeps h₂ (tactic_T0_keeps hP h₁ hB) fun C hC hf => tactic_B1_keeps hP hf hC
  have hr₃ := orTry_keeps h₃ hr₂ fun C hC hf => tactic_B2_keeps hP hf hC
  have hr₄ := orTry_keeps h₄ hr₃ fun C hC hf => tactic_T1_keeps hP hf hC
  have hr₅ := orTry_keeps h₅ hr₄ fun C hC hf => tactic_T2_keeps hP hf hC
  have hr₆ := orTry_keeps h₆ hr₅ fun C hC hf => tactic_T3_keeps hP hf hC
  exact orTry_keeps h hr₆ fun C hC hf => tactic_B0_keeps hP hf hC

/-! ### Messages and runs -/

theorem patch_keeps (hP : CallsKeep P) {B' : Binary} {o : Option Tactic} (h : Binary.patch I T B = .ok (B', o))
    (hB : P B.allocator) : P B'.allocator := by
  unfold Binary.patch at h
  split at h
  · cases h
  obtain ⟨r, hr, h⟩ := bind_ok.mp h
  have hPr := tactics_keeps hP hr hB
  split at h
  · cases h
    exact hPr
  · cases h
    obtain ⟨Es, Traps, hC⟩ := commit_frame r.1 r.2
    rw [hC]
    exact hPr

theorem parseReserve_keeps_calls (hP : CallsKeep P) {B' : Binary} {absolute : List Bool} {address : List Int}
    {bytes : List Template} {length : List Int} (h : parseReserve B absolute address bytes length = .ok B')
    (hB : P B.allocator) : P B'.allocator := by
  unfold parseReserve at h
  obtain ⟨addr, -, h⟩ := bind_ok.mp h
  obtain ⟨_, -, h⟩ := bind_ok.mp h
  obtain ⟨_, -, h⟩ := bind_ok.mp h
  obtain ⟨_, -, h⟩ := bind_ok.mp h
  split at h
  · obtain ⟨size, -, h⟩ := bind_ok.mp h
    refine foldlM_rel (R := fun C C' : Binary => P C.allocator → P C'.allocator) (fun _ => id)
      (fun h1 h2 hC => h2 (h1 hC))
      (fun a _ C C' hf hC => ?_) h hB
    unfold reserveTrampoline at hf
    split at hf
    · cases hf
      exact hC
    · obtain ⟨o, ho, hf⟩ := bind_ok.mp hf
      cases o with
      | none => cases hf
      | some o =>
          cases hf
          exact allocate_keeps hP ho hC
  · split at h
    · cases h
      exact hB
    · obtain ⟨t, n, ht, rfl⟩ := reserve_inv (reserveLength_ok h)
      exact hP.reserve ht hB
  · cases h
    exact hB

theorem TacticCall.keeps (hP : CallsKeep P) {r : Binary × List Patch} (h : TacticCall B r) (hB : P B.allocator) :
    P r.1.allocator := by
  cases h with
  | B0 I T _ h => exact tactic_B0_keeps hP h hB
  | B1 I T tactic _ h => exact tactic_B1_keeps hP h hB
  | B2 I T tactic _ h => exact tactic_B2_keeps hP h hB
  | T0 I T _ h => exact tactic_T0_keeps hP h hB
  | T1 I T tactic _ h => exact tactic_T1_keeps hP h hB
  | T2 I T _ h => exact tactic_T2_keeps hP h hB
  | T3 I T _ h => exact tactic_T3_keeps hP h hB
  | T3b I T _ h => exact tactic_T3b_keeps hP h hB

/-- **Step.** What the calls of the allocator keep, every step of a run keeps. -/
theorem Step.keeps_calls (hP : CallsKeep P) {B' : Binary} (h : Step B B') (hB : P B.allocator) : P B'.allocator := by
  cases h with
  | instruction address length offset h =>
      obtain ⟨off, addr, len, -, h⟩ := parseInstruction_ok h
      rw [(claim_spec h).1]
      exact hB
  | reserve absolute address bytes length h => exact parseReserve_keeps_calls hP h hB
  | trampoline name template h =>
      rw [parseTrampoline_only h]
      exact hB
  | mark I metadata T => exact hB
  | queue I T hI h =>
      obtain ⟨C, hC, h⟩ := bind_ok.mp h
      cases h
      have hCB : C.allocator = B.allocator := by
        rw [(restate_spec queueByte_spec (fun b => .of_open (by decide) (by decide) (by decide)) hC).1]
      rw [← hCB] at hB
      exact hB
  | postpone options analysis => exact hB
  | options options analysis =>
      rw [(applyOptions_same B options analysis).eq]
      exact hB
  | entrySet =>
      obtain ⟨Es, hEs⟩ := buildEntrySet_frame B
      rw [hEs]
      exact hB
  | cursor cursor => exact hB
  | pop Q hQ => exact hB
  | dequeue I hI h =>
      obtain ⟨C, hC, h⟩ := bind_ok.mp h
      cases h
      have hCB : C.allocator = B.allocator := by
        rw [(restate_spec unqueueByte_spec (fun b => .of_open (by decide) (by decide) (by decide)) hC).1]
      rw [← hCB] at hB
      exact hB
  | patch I T hI h => exact patch_keeps hP h hB
  | tactic r h => exact h.keeps hP hB
  | free K hK hp h =>
      rw [patchUnused_allocator h]
      exact hB
  | flag J v => exact hB
  | place I J i T hJ hA h =>
      rw [applyJump_allocator h]
      exact allocatePunnedJump_keeps hP hA hB

/-- **Run.** What the calls of the allocator keep, holds in every state that a run reaches. -/
theorem Reachable.of_calls (hP : CallsKeep P) (hempty : P Tree.empty) (h : Reachable B) : P B.allocator := by
  obtain ⟨file, mode, options, analysis, B₀, h₀, hruns⟩ := h
  obtain ⟨C, hC, h₀⟩ := bind_ok.mp h₀
  cases h₀
  have hPC : P C.allocator := by
    refine foldlM_rel (R := fun D E : Binary => P D.allocator → P E.allocator) (fun _ => id)
      (fun h1 h2 hC => h2 (h1 hC))
      (fun a _ D E hf hD => ?_) hC hempty
    obtain ⟨t, n, ht, rfl⟩ := reserve_inv (reserveSegment_ok hf)
    exact hP.reserve ht hD
  have h₀ := ((disableTraps_same C).trans (targetAnalysis_same _ analysis)).eq
  induction hruns with
  | refl =>
      rw [h₀]
      exact hPC
  | tail _ hs ih => exact hs.keeps_calls hP ih

end

/-! ### Entries -/

namespace Tree
variable {τ ι : Type}

@[simp] theorem relink_alloc (t : Tree τ ι) (p : Option Nat) (n : Nat) (v : Option Nat) :
    (t.relink p n v).heap.alloc = t.heap.alloc := by
  cases p <;> rfl

@[simp] theorem setColor_alloc (t : Tree τ ι) (n : Nat) (v : RedBlack.Color) :
    (t.setColor n v).heap.alloc = t.heap.alloc := rfl

@[simp] theorem fix_alloc (t : Tree τ ι) (n : Option Nat) : (t.fix n).heap.alloc = t.heap.alloc :=
  Heap.fix_alloc _ _

@[simp] theorem blacken_alloc (t : Tree τ ι) (q : Option Nat) : (t.blacken q).heap.alloc = t.heap.alloc := by
  cases q <;> rfl

theorem fixUp_alloc (h : Heap τ ι) (fuel : Nat) (n : Option Nat) : (h.fixUp fuel n).alloc = h.alloc := by
  induction fuel generalizing h n with
  | zero => rfl
  | succ fuel ih =>
      cases n with
      | none => rfl
      | some m => exact (ih _ _).trans (Heap.fix_alloc _ _)

@[simp] theorem rotate_alloc (d : Dir) (t : Tree τ ι) (n : Nat) : (rotate d t n).heap.alloc = t.heap.alloc := by
  unfold rotate
  split
  · rfl
  · simp [Heap.setChild, Heap.setParent, Heap.adopt]

theorem removeBlackSide_alloc (d : Dir) (t : Tree τ ι) (parent tmp : Nat) :
    (removeBlackSide d t parent tmp).1.heap.alloc = t.heap.alloc := by
  unfold removeBlackSide
  split
  · rfl
  · by_cases hb : t.heap.isBlack (t.heap.child d.flip tmp) = true
    · rw [if_pos hb]
      simp only
      split <;> simp
    · rw [if_neg hb]
      simp

theorem removeSide_alloc (d : Dir) (t : Tree τ ι) (parent tmp : Nat) :
    (removeSide d t parent tmp).1.heap.alloc = t.heap.alloc := by
  unfold removeSide
  split
  · simp only
    split
    · simp
    · rw [removeBlackSide_alloc]
      simp
  · exact removeBlackSide_alloc d t parent tmp

theorem removeLoop_alloc (fuel : Nat) (t : Tree τ ι) (parent n : Option Nat) :
    (removeLoop fuel t parent n).1.heap.alloc = t.heap.alloc := by
  induction fuel generalizing t parent n with
  | zero => rfl
  | succ fuel ih =>
      unfold removeLoop
      split
      · split
        · rfl
        · simp only
          split
          · rfl
          · generalize (if t.heap.child .left _ = n then Dir.left else .right) = d
            split
            · exact removeSide_alloc _ _ _ _
            · rw [ih, removeSide_alloc]
      · rfl

theorem rebalanceRemove_alloc (t : Tree τ ι) (parent n : Option Nat) :
    (t.rebalanceRemove parent n).heap.alloc = t.heap.alloc := by
  unfold rebalanceRemove
  rw [blacken_alloc, removeLoop_alloc]

/-- Freeing leaves the records alone. -/
theorem remove_alloc (t : Tree τ ι) (n : Nat) : (t.remove n).heap.alloc = t.heap.alloc := by
  have houter : ∀ child, (t.removeOuter n child).heap.alloc = t.heap.alloc := by
    intro child
    unfold removeOuter
    simp only
    split
    · rw [rebalanceRemove_alloc]
      simp [fixUp_alloc, Heap.adopt]
    · simp [fixUp_alloc, Heap.adopt]
  unfold remove
  split
  · exact houter _
  · exact houter _
  · unfold removeInner
    simp only
    split
    · rw [rebalanceRemove_alloc]
      simp [fixUp_alloc, Heap.adopt, Heap.setColor, Heap.setChild, Heap.setParent]
    · simp [fixUp_alloc, Heap.adopt, Heap.setColor, Heap.setChild, Heap.setParent]

theorem insertSide_alloc (d : Dir) (t : Tree τ ι) (n parent gparent : Nat) :
    (insertSide d t n parent gparent).1.heap.alloc = t.heap.alloc := by
  have hclose : (insertSide.close d t n parent gparent).1.heap.alloc = t.heap.alloc := by
    unfold insertSide.close
    by_cases hc : t.heap.child d.flip parent = some n
    · rw [if_pos hc]
      simp
    · rw [if_neg hc]
      simp
  unfold insertSide
  simp only
  split
  · split
    · rfl
    · exact hclose
  · exact hclose

theorem insertLoop_alloc (fuel : Nat) (t : Tree τ ι) (n : Nat) :
    (insertLoop fuel t n).heap.alloc = t.heap.alloc := by
  induction fuel generalizing t n with
  | zero => rfl
  | succ fuel ih =>
      unfold insertLoop
      split
      · rfl
      · split
        · split
          · rfl
          · rw [ih, insertSide_alloc]
        · rfl

theorem grow_alloc (t : Tree τ ι) (h : Heap τ ι) (n : Nat) : (t.grow h n).heap.alloc = h.alloc := by
  unfold grow rebalanceInsert
  rw [blacken_alloc, insertLoop_alloc]
  exact fixUp_alloc _ _ _

end Tree

namespace Heap
variable {τ ι : Type}

/-- `n` is a new record of `size` bytes without an entry, all others are as before. -/
def Places (size : Nat) (h : Heap τ ι) (r : Heap τ ι × Nat) : Prop :=
  ∃ LB : Int, r.1.alloc = fun z => if z = r.2 then ⟨LB, LB + size, none, none, 0⟩ else h.alloc z

theorem insert_places {h : Heap τ ι} {fuel size : Nat} {root : Option Nat} {lb ub : Int} {flags : Flags}
    {r : Heap τ ι × Nat} (hlb : INTPTR_MIN ≤ lb) (hub : ub ≤ INTPTR_MAX)
    (hins : h.insert checked fuel root lb ub size flags = .ok (some r)) : h.Places size r := by
  obtain ⟨p, lb', ub', flags', r', hfit, -, hnode, hn, halloc⟩ := insert_node hlb hub hins
  unfold node at hnode
  split at hnode
  · cases hnode
  · rename_i LB UB hb
    cases hnode
    obtain ⟨-, rfl, -⟩ := nodeBounds_spec hb hfit
    exact ⟨LB, by rw [halloc, hn]⟩

end Heap

/-- No record has its entry outside. -/
def EntriesInside (t : Tree Trampoline Nat) : Prop :=
  ∀ n, ((t.heap.alloc n).entry : Int) ≤ (t.heap.alloc n).ub - (t.heap.alloc n).lb

theorem EntriesInside.add {t : Tree Trampoline Nat} (h : EntriesInside t) {r : Heap Trampoline Nat × Nat} {size : Nat}
    (hr : t.heap.Places size r) (T : Option Trampoline) (I : Option Nat) {entry : Nat} (hentry : entry ≤ size) :
    EntriesInside ((t.grow r.1 r.2).setAlloc r.2 T I entry) := by
  obtain ⟨LB, hr⟩ := hr
  intro n
  simp only [Tree.setAlloc, Tree.grow_alloc, hr]
  split
  · simp only [ite_true]
    omega
  · exact h n

/-- An allocation is as large as its prologue at least. -/
theorem entriesInside_calls : CallsKeep EntriesInside where
  allocate := by
    intro order t t' lb ub presize tmpsize T I same_page n h ht
    obtain ⟨-, -, hmin, UB, flags, h', -, hmax, -, hins, rfl⟩ := allocate_cases h
    exact ht.add (Heap.insert_places hmin hmax hins) T I (by omega)
  reserve := by
    intro t t' lb ub n h ht
    obtain ⟨LB, UB, -, -, -, hmin, hmax, h⟩ := reserve_cases h
    obtain ⟨size, flags, h', -, hins, rfl⟩ := reservePages_cases h
    obtain ⟨LB', hr⟩ := Heap.insert_places hmin hmax hins
    refine ht.add ⟨LB', hr⟩ none none ?_
    rw [hr]
    simp
  remove := by
    intro t n ht m
    rw [Tree.remove_alloc]
    exact ht m

/-- In every state of a run, the entry of a trampoline is inside it. -/
theorem Reachable.entriesInside {B : Binary} (h : Reachable B) : EntriesInside B.allocator :=
  h.of_calls entriesInside_calls fun _ => Int.le_refl 0

end E9Patch
