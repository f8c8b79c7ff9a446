import E9Patch.QueueRun

/-!
The entry points of trampolines (`e9optimize.cpp`) over runs. An entry point is that of a patched instruction
itself, or of an instruction of its prologue; in the second case the original code runs from it into the next
instruction, which has an entry point as well.
-/

namespace E9Patch
open Bytes Binary Fallible

/-! ### The map -/

def EntrySet.Sorted (Es : EntrySet) : Prop := Es.Pairwise fun E F => E.1 < F.1

/-- There is an entry point at the address. -/
def EntrySet.HasKey (Es : EntrySet) (addr : Int) : Prop := ∃ F, (addr, F) ∈ Es

section
variable {Es : EntrySet} {addr : Int} {E : EntryPoint}

theorem EntrySet.find_mem (h : EntrySet.find Es addr = some E) : (addr, E) ∈ Es := by
  obtain ⟨F, hF, rfl⟩ := Option.map_eq_some_iff.mp h
  have haddr : F.1 = addr := by simpa using List.find?_some hF
  rw [← haddr]
  exact List.mem_of_find?_eq_some hF

theorem EntrySet.mem_insert {F : Int × EntryPoint} (h : F ∈ EntrySet.insert Es addr E) : F ∈ Es ∨ F = (addr, E) := by
  induction Es with
  | nil => exact Or.inr (List.mem_singleton.mp h)
  | cons G Es ih =>
      unfold EntrySet.insert at h
      split at h
      · rcases List.mem_cons.mp h with rfl | h
        · exact Or.inr rfl
        · exact Or.inl h
      split at h
      · exact Or.inl h
      · rcases List.mem_cons.mp h with rfl | h
        · exact Or.inl (List.mem_cons_self ..)
        · exact (ih h).imp_left (List.mem_cons_of_mem _)

theorem EntrySet.mem_insert_of_mem {F : Int × EntryPoint} (h : F ∈ Es) : F ∈ EntrySet.insert Es addr E := by
  induction Es with
  | nil => cases h
  | cons G Es ih =>
      unfold EntrySet.insert
      split
      · exact List.mem_cons_of_mem _ h
      split
      · exact h
      · rcases List.mem_cons.mp h with rfl | h
        · exact List.mem_cons_self ..
        · exact List.mem_cons_of_mem _ (ih h)

theorem EntrySet.hasKey_insert (Es : EntrySet) (addr : Int) (E : EntryPoint) : (EntrySet.insert Es addr E).HasKey addr := by
  induction Es with
  | nil => exact ⟨E, List.mem_singleton_self _⟩
  | cons G Es ih =>
      unfold EntrySet.insert
      split
      · exact ⟨E, List.mem_cons_self ..⟩
      split
      · rename_i heq
        exact ⟨G.2, heq ▸ List.mem_cons_self ..⟩
      · obtain ⟨F, hF⟩ := ih
        exact ⟨F, List.mem_cons_of_mem _ hF⟩

theorem EntrySet.Sorted.insert (h : Es.Sorted) (addr : Int) (E : EntryPoint) : (EntrySet.insert Es addr E).Sorted := by
  induction Es with
  | nil => exact List.pairwise_singleton _ _
  | cons G Es ih =>
      obtain ⟨hG, hEs⟩ := List.pairwise_cons.mp h
      unfold EntrySet.insert
      split
      · rename_i hlt
        refine List.pairwise_cons.mpr ⟨fun F hF => ?_, h⟩
        rcases List.mem_cons.mp hF with rfl | hF
        · exact hlt
        · exact Int.lt_trans hlt (hG F hF)
      split
      · exact h
      · rename_i hnlt hne
        refine List.pairwise_cons.mpr ⟨fun F hF => ?_, ih hEs⟩
        rcases EntrySet.mem_insert hF with hF | rfl
        · exact hG F hF
        · simp only
          omega

end

/-- Of every entry point the address and the instruction are left alone. -/
def KeepsKeys (f : Int × EntryPoint → Int × EntryPoint) : Prop := ∀ E, (f E).1 = E.1 ∧ (f E).2.I = E.2.I

theorem KeepsKeys.setEntry (addr entry : Int) :
    KeepsKeys fun E => if E.1 = addr then (E.1, { E.2 with entry := entry }) else E := by
  intro E
  dsimp only
  split <;> exact ⟨rfl, rfl⟩

theorem KeepsKeys.mark (target : Int) (is_rel8 : Bool) :
    KeepsKeys fun E =>
      if E.1 ≠ target then E
      else if is_rel8 then (E.1, { E.2 with target8 := true })
      else (E.1, { E.2 with target32 := true }) := by
  intro E
  dsimp only
  split
  · exact ⟨rfl, rfl⟩
  · split <;> exact ⟨rfl, rfl⟩

/-! ### What an entry point is for -/

/-- The original code runs from `J` into the instruction behind it. -/
def FallsThrough (B : Binary) (J J' : Nat) : Prop :=
  B.succ J = some J' ∧ isCFT (B.ORIG J) ⟨true, true, true, false⟩ = false

/-- The entry point at `addr` is that of its instruction, or of one that falls through to another one with an
entry point. -/
def EntryFollows (B : Binary) (Es : EntrySet) (addr : Int) (I : Nat) : Prop :=
  addr = (B.Is I).addr ∨ ∃ J J', J < B.count ∧ addr = (B.Is J).addr ∧ FallsThrough B J J' ∧ Es.HasKey (B.Is J').addr

structure EntriesFollow (B : Binary) (Es : EntrySet) : Prop where
  sorted : Es.Sorted
  entry : ∀ E ∈ Es, E.2.I < B.count ∧ EntryFollows B Es E.1 E.2.I

section
variable {B B' : Binary} {Es : EntrySet}

theorem EntriesFollow.map (h : EntriesFollow B Es) {f : Int × EntryPoint → Int × EntryPoint} (hf : KeepsKeys f) :
    EntriesFollow B (Es.map f) := by
  have hkey : ∀ {addr}, Es.HasKey addr → EntrySet.HasKey (Es.map f) addr := by
    rintro addr ⟨F, hF⟩
    refine ⟨(f (addr, F)).2, List.mem_map.mpr ⟨_, hF, ?_⟩⟩
    exact Prod.ext (hf (addr, F)).1 rfl
  refine ⟨?_, fun E hE => ?_⟩
  · unfold EntrySet.Sorted
    rw [List.pairwise_map]
    refine List.Pairwise.imp (fun {F G} hlt => ?_) h.sorted
    rwa [(hf F).1, (hf G).1]
  · obtain ⟨F, hF, rfl⟩ := List.mem_map.mp hE
    rw [(hf F).1, (hf F).2]
    obtain ⟨hI, hfollow⟩ := h.entry F hF
    refine ⟨hI, ?_⟩
    rcases hfollow with hown | ⟨J, J', hJ, haddr, hfall, hnext⟩
    · exact Or.inl hown
    · exact Or.inr ⟨J, J', hJ, haddr, hfall, hkey hnext⟩

theorem EntriesFollow.insert (h : EntriesFollow B Es) {addr : Int} {E : EntryPoint} (hI : E.I < B.count)
    (hE : EntryFollows B Es addr E.I) : EntriesFollow B (EntrySet.insert Es addr E) := by
  have hkey : ∀ {a I}, EntryFollows B Es a I → EntryFollows B (EntrySet.insert Es addr E) a I := by
    rintro a I (hown | ⟨J, J', hJ, haddr, hfall, F, hF⟩)
    · exact Or.inl hown
    · exact Or.inr ⟨J, J', hJ, haddr, hfall, F, EntrySet.mem_insert_of_mem hF⟩
  refine ⟨h.sorted.insert addr E, fun F hF => ?_⟩
  rcases EntrySet.mem_insert hF with hF | rfl
  · exact ⟨(h.entry F hF).1, hkey (h.entry F hF).2⟩
  · exact ⟨hI, hkey hE⟩

/-- Setting an entry point keeps what the others are for. -/
theorem EntriesFollow.setTrampolineEntry (h : EntriesFollow B B.Es) {I : Nat} (hI : I < B.count) (entry : Int) :
    EntriesFollow B (setTrampolineEntry B I entry).Es := by
  unfold E9Patch.setTrampolineEntry
  simp only
  split
  · split
    · exact h.insert hI (Or.inl rfl)
    · exact h
  · exact h.map (.setEntry _ _)

/-! ### Building the set -/

/-- The first loop of `buildEntrySet`, in front of `I`: the code from `I` runs into the instruction behind it,
which has an entry point where `I` is to have one. -/
def ScanFollows (B : Binary) (I : Option Nat) (s : EntryScan) (Es : EntrySet) : Prop :=
  ∀ k ∈ I, ∀ J ∈ s.J, J < B.count ∧ ∃ X, B.succ k = some X ∧
    (s.num ≤ B.options.option_Oprologue → s.size ≤ B.options.option_Oprologue_size → Es.HasKey (B.Is X).addr)

theorem next_of_prev (hw : WellFormed B) {k K : Nat} (h : B.prev k = some K) : B.next K = some k := by
  obtain ⟨rfl, hK⟩ := prev_some hw h
  have h1 := hw.offsets k (k + 1) (Nat.lt_succ_self k) hK
  have h2 := (hw.size (k + 1) hK).1
  simp only [next, instrAt]
  exact if_neg (by omega)

theorem prologueEntries_follow (hw : WellFormed B) {fuel : Nat} {I : Option Nat} {s : EntryScan}
    (hI : ∀ k ∈ I, k < B.count) (hs : ScanFollows B I s Es) (h : EntriesFollow B Es) :
    EntriesFollow B (prologueEntries B fuel I s Es) := by
  induction fuel generalizing I s Es with
  | zero => exact h
  | succ fuel ih =>
      cases I with
      | none => exact h
      | some I =>
          have hcount := hI I rfl
          unfold prologueEntries
          extract_lets s₁ Es₁ K J₁
          have hstate : s₁ = ⟨some I, 0, 0⟩ ∨ s₁.J = none ∨
              s₁ = s ∧ isCFT (B.ORIG I) ⟨true, true, true, false⟩ = false := by
            simp only [s₁]
            split
            · exact Or.inl rfl
            split
            · exact Or.inr (Or.inl rfl)
            · rename_i hcft
              exact Or.inr (Or.inr ⟨rfl, Bool.eq_false_iff.mpr hcft⟩)
          have hknown : ∀ J ∈ s₁.J, J < B.count := by
            intro J hJ
            rcases hstate with heq | hnone | ⟨heq, -⟩
            · rw [heq] at hJ
              cases hJ
              exact hcount
            · rw [hnone] at hJ
              cases hJ
            · rw [heq] at hJ
              exact (hs I rfl J hJ).1
          have hEs : EntriesFollow B Es₁ ∧ ∀ J ∈ s₁.J, s₁.num ≤ B.options.option_Oprologue →
              s₁.size ≤ B.options.option_Oprologue_size → EntrySet.HasKey Es₁ (B.Is I).addr := by
            simp only [Es₁]
            cases hJ : s₁.J with
            | none => exact ⟨h, fun J hJ => by cases hJ⟩
            | some J =>
                dsimp only
                split
                · rename_i hbound
                  refine ⟨h.insert (hknown J hJ) ?_, fun _ _ _ _ => EntrySet.hasKey_insert _ _ _⟩
                  rcases hstate with heq | hnone | ⟨heq, hcft⟩
                  · rw [heq] at hJ
                    cases hJ
                    exact Or.inl rfl
                  · rw [hnone] at hJ
                    cases hJ
                  · rw [heq] at hJ hbound
                    obtain ⟨-, X, hX, hkey⟩ := hs I rfl J hJ
                    exact Or.inr ⟨I, X, hcount, rfl, ⟨hX, hcft⟩, hkey hbound.1 hbound.2⟩
                · rename_i hbound
                  exact ⟨h, fun _ _ h1 h2 => absurd ⟨h1, h2⟩ hbound⟩
          refine ih (fun k hk => (prev_some hw hk).2) (fun k hk J hJ => ?_) hEs.1
          have hJ₁ : J₁ = some J := hJ
          have hnext := next_of_prev hw hk
          simp only [J₁, show K = some k from hk] at hJ₁
          split at hJ₁
          · cases hJ₁
          · rename_i hall
            have hsucc : B.succ k = some I := by
              rw [← hnext]
              exact (by simpa using hall : B.next k = B.succ k).symm
            refine ⟨hknown J hJ₁, I, hsucc, fun h1 h2 => ?_⟩
            dsimp only at h1 h2
            exact hEs.2 J hJ₁ (by omega) (by omega)

/-- The initial set of entry points. -/
theorem buildEntrySet_follows (hw : WellFormed B) (h : EntriesFollow B B.Es) :
    EntriesFollow B (buildEntrySet B).Es := by
  have hmarks : ∀ (l : List Nat) (Es : EntrySet), EntriesFollow B Es →
      EntriesFollow B (l.foldl (markTargets B) Es) := by
    intro l
    induction l with
    | nil => exact fun Es hEs => hEs
    | cons I l ih =>
        intro Es hEs
        refine ih _ ?_
        unfold markTargets
        split
        · exact hEs
        · split
          · exact hEs
          · exact hEs.map (.mark _ _)
  unfold buildEntrySet
  simp only
  split
  · exact h
  · rename_i hon
    refine hmarks _ _ (prologueEntries_follow hw (fun k hk => ?_) (fun k _ J hJ => by cases hJ) h)
    cases hk
    omega

/-! ### The patches of a tactic -/

/-- The patches with a trampoline are for instructions that are there. -/
def Known (n : Nat) (Ps : List Patch) : Prop := ∀ P ∈ Ps, P.A ≠ none → P.I < n

theorem Known.nil (n : Nat) : Known n [] := fun P hP => by cases hP

theorem Known.single {n : Nat} {P : Patch} (h : P.I < n) : Known n [P] := by
  intro Q hQ _
  rwa [List.mem_singleton.mp hQ]

theorem Known.append {n : Nat} {Ps Qs : List Patch} (h : Known n Ps) (h' : Known n Qs) : Known n (Ps ++ Qs) := by
  intro P hP hA
  rcases List.mem_append.mp hP with hP | hP
  · exact h P hP hA
  · exact h' P hP hA

theorem Known.setNext {n : Nat} {Ps Qs : List Patch} (h : Known n Qs) (h' : Known n Ps) :
    Known n (setNext Qs Ps) :=
  Known.append (fun P hP hA => h P (List.mem_of_mem_take hP) hA) h'

theorem Known.orTry {n : Nat} {r r' : Binary × List Patch} {f : Binary → Except Fault (Binary × List Patch)}
    (hr : Known n r.2) (h : orTry r f = .ok r') (hf : ∀ {s}, f r.1 = .ok s → Known n s.2) : Known n r'.2 := by
  rcases orTry_cases h with ⟨-, rfl⟩ | ⟨-, h⟩
  · exact hr
  · exact hf h

section
variable {n I : Nat} {T : Trampoline} {tactic : Tactic} {r : Binary × List Patch}

theorem tactic_B0_known (hI : I < n) (h : tactic_B0 I T B = .ok r) : Known n r.2 := by
  unfold tactic_B0 at h
  split at h
  · cases h
    exact .nil n
  obtain ⟨o, -, h⟩ := bind_ok.mp h
  cases o with
  | none =>
      cases h
      exact .nil n
  | some o =>
      obtain ⟨C, -, h⟩ := bind_ok.mp h
      obtain ⟨D, -, h⟩ := bind_ok.mp h
      cases h
      exact .single hI

theorem tactic_B1_known (hI : I < n) (h : tactic_B1 I T tactic B = .ok r) : Known n r.2 := by
  unfold tactic_B1 at h
  split at h
  · cases h
    exact .nil n
  obtain ⟨o, -, h⟩ := bind_ok.mp h
  cases o with
  | none =>
      cases h
      exact .nil n
  | some o =>
      obtain ⟨⟨C, P⟩, hC, h⟩ := bind_ok.mp h
      obtain ⟨D, -, h⟩ := bind_ok.mp h
      cases h
      exact .single (by rw [(applyJump_ok hC).2]; exact hI)

theorem tactic_B2_known (hI : I < n) (h : tactic_B2 I T tactic B = .ok r) : Known n r.2 := by
  unfold tactic_B2 at h
  split at h
  · cases h
    exact .nil n
  obtain ⟨o, -, h⟩ := bind_ok.mp h
  cases o with
  | none =>
      cases h
      exact .nil n
  | some o =>
      obtain ⟨⟨C, P⟩, hC, h⟩ := bind_ok.mp h
      cases h
      exact .single (by rw [(applyJump_ok hC).2]; exact hI)

theorem tactic_T1_known (hI : I < n) (h : tactic_T1 I T tactic B = .ok r) : Known n r.2 := by
  have hloop : ∀ {pres : List Nat}, tactic_T1Loop I T tactic B pres = .ok r → Known n r.2 := by
    intro pres
    induction pres with
    | nil =>
        intro h
        cases h
        exact .nil n
    | cons pre pres ih =>
        intro h
        unfold tactic_T1Loop at h
        split at h
        · cases h
          exact .nil n
        obtain ⟨o, -, h⟩ := bind_ok.mp h
        cases o with
        | none => exact ih h
        | some o =>
            obtain ⟨C, -, h⟩ := bind_ok.mp h
            obtain ⟨D, -, h⟩ := bind_ok.mp h
            cases h
            exact .single hI
  unfold tactic_T1 at h
  split at h
  · cases h
    exact .nil n
  · exact hloop h

theorem evict_known (hI : I < n) (h : evict I tactic T B = .ok r) : Known n r.2 := by
  obtain ⟨r₁, h₁, h⟩ := bind_ok.mp h
  obtain ⟨r₂, h₂, h⟩ := bind_ok.mp h
  exact ((tactic_B1_known hI h₁).orTry h₂ (tactic_B2_known hI)).orTry h (tactic_T1_known hI)

/-- The instructions of a batch are freed without a trampoline. -/
theorem freeBatch_known {J fuel : Nat} {K : Option Nat} {Ps : List Patch} (hPs : Known n Ps)
    (h : freeBatch J fuel K Ps B = .ok r) : Known n r.2 := by
  induction fuel generalizing B K Ps with
  | zero =>
      cases h
      exact hPs
  | succ fuel ih =>
      cases K with
      | none =>
          cases h
          exact hPs
      | some K =>
          unfold freeBatch at h
          split at h
          · cases h
            exact hPs
          · obtain ⟨C, -, h⟩ := bind_ok.mp h
            refine ih (fun P hP hA => ?_) h
            rcases List.mem_cons.mp hP with rfl | hP
            · exact absurd rfl hA
            · exact hPs P hP hA

theorem tactic_T0_known (hw : WellFormed B) (hI : I < B.count) (h : tactic_T0 I T B = .ok r) :
    Known B.count r.2 := by
  unfold tactic_T0 at h
  split at h
  · cases h
    exact .nil _
  simp only at h
  split at h
  · cases h
    exact .nil _
  obtain ⟨P, hP, h⟩ := bind_ok.mp h
  obtain ⟨Q, hQ, h⟩ := bind_ok.mp h
  split at h
  · cases h
    exact .nil _
  · cases h
    exact (evict_known (batchStart_spec hw T0_LIMIT 0 hI).2.1 hQ).setNext (freeBatch_known (.nil _) hP)

theorem tactic_T2_known (hw : WellFormed B) (hI : I < B.count) (h : tactic_T2 I T B = .ok r) :
    Known B.count r.2 := by
  unfold tactic_T2 at h
  split at h
  · cases h
    exact .nil _
  split at h
  · cases h
    exact .nil _
  rename_i J hJ
  split at h
  · cases h
    exact .nil _
  have hJ' := (succ_some hw hJ).2.1
  obtain ⟨Q, hQ, h⟩ := bind_ok.mp h
  obtain ⟨Q', hQ', h⟩ := bind_ok.mp h
  have hknown := (tactic_B2_known hJ' hQ).orTry hQ' (tactic_T1_known hJ')
  split at h
  · cases h
    exact hknown
  obtain ⟨P, hP, h⟩ := bind_ok.mp h
  obtain ⟨P', hP', h⟩ := bind_ok.mp h
  split at h
  · cases h
    exact .nil _
  · cases h
    exact ((tactic_B2_known hI hP).orTry hP' (tactic_T1_known hI)).setNext hknown

theorem placeJump_known {J i : Nat} {backward : Bool} {s : Binary × Option Nat × List Patch} (hJ : J < n)
    (h : placeJump I J i T backward B = .ok s) : Known n s.2.2 := by
  unfold placeJump at h
  simp only at h
  obtain ⟨o, -, h⟩ := bind_ok.mp h
  have hmoved : ∀ P : Patch, Known n [{ P with A := none }] := fun P Q hQ hA => by
    rw [List.mem_singleton.mp hQ] at hA
    exact absurd rfl hA
  cases o with
  | none =>
      cases h
      exact .nil n
  | some o =>
      obtain ⟨⟨C, P⟩, -, h⟩ := bind_ok.mp h
      split at h
      · cases h
        exact hmoved P
      · obtain ⟨Q, hQ, h⟩ := bind_ok.mp h
        split at h
        · cases h
          exact .nil n
        · cases h
          exact (evict_known hJ hQ).setNext (hmoved P)

theorem tactic_T3Bytes_known {J : Nat} {is : List Nat} {s : Binary × Option (Nat × Int) × List Patch} (hJ : J < n)
    (h : tactic_T3Bytes I J T B is = .ok s) : Known n s.2.2 := by
  induction is generalizing B with
  | nil =>
      cases h
      exact .nil n
  | cons i is ih =>
      unfold tactic_T3Bytes at h
      simp only at h
      split at h
      · exact ih h
      split at h
      · exact ih h
      split at h
      · cases h
        exact .nil n
      split at h
      · exact ih h
      split at h
      · obtain ⟨p, hp, h⟩ := bind_ok.mp h
        split at h
        · exact ih h
        · cases h
          exact placeJump_known hJ hp
      · exact ih h

theorem tactic_T3Loop_known {fuel : Nat} {J : Option Nat} {s : Binary × Option (Nat × Int) × List Patch}
    (hw : WellFormed B) (hJ : ∀ j ∈ J, j < B.count) (hT : T ≠ evicteeTrampoline)
    (h : tactic_T3Loop I T fuel J B = .ok s) : Known B.count s.2.2 := by
  induction fuel generalizing J B with
  | zero =>
      cases h
      exact .nil _
  | succ fuel ih =>
      cases J with
      | none =>
          cases h
          exact .nil _
      | some J =>
          have hprev : ∀ {C}, WellFormed C → ∀ j ∈ C.prev J, j < C.count := fun hC j hj => (prev_some hC hj).2
          unfold tactic_T3Loop at h
          split at h
          · exact ih hw (hprev hw) h
          rename_i hJI
          split at h
          · cases h
            exact .nil _
          split at h
          · cases h
            exact .nil _
          split at h
          · exact ih hw (hprev hw) h
          obtain ⟨p, hp, h⟩ := bind_ok.mp h
          rcases tactic_T3Bytes_spec hw (hJ J rfl) hJI hT hp with ⟨hnil, hu⟩ | ⟨A, _, _, hA, _⟩
          · simp only [hnil] at h
            have hw' := hw.unchanged hu
            rw [← hu.progress.count]
            exact ih hw' (hprev hw') h
          · simp only [hA] at h
            cases h
            exact tactic_T3Bytes_known (hJ J rfl) hp

theorem tactic_T3b_known (hw : WellFormed B) (hI : I < B.count) (h : tactic_T3b I T B = .ok r) :
    Known B.count r.2 := by
  unfold tactic_T3b at h
  split at h
  · cases h
    exact .nil _
  split at h
  · cases h
    exact .nil _
  rename_i S hS
  have hS' := (succ_some hw hS).2.1
  split at h
  · cases h
    exact .nil _
  simp only at h
  split at h
  · cases h
    exact .nil _
  split at h
  · cases h
    exact .nil _
  rename_i J hJ
  have hJ' : J < B.count := by
    split at hJ
    · refine skipForward_lt hw (fun j hj => ?_) hJ
      cases hj
      exact hS'
    · exact skipBackward_lt hw (fun j hj => (prev_some hw hj).2) hJ
  split at h
  · cases h
    exact .nil _
  split at h
  · obtain ⟨s, hs, h⟩ := bind_ok.mp h
    split at h
    · cases h
      exact .nil _
    · obtain ⟨_, -, h⟩ := bind_ok.mp h
      obtain ⟨K, -, h⟩ := bind_ok.mp h
      cases h
      exact Known.append (.single hI) (placeJump_known hJ' hs)
  · cases h
    exact .nil _

theorem tactic_T3_known (hw : WellFormed B) (hI : I < B.count) (hT : T ≠ evicteeTrampoline)
    (h : tactic_T3 I T B = .ok r) : Known B.count r.2 := by
  unfold tactic_T3 at h
  split at h
  · exact tactic_T3b_known hw hI h
  split at h
  · cases h
    exact .nil _
  obtain ⟨s, hs, h⟩ := bind_ok.mp h
  split at h
  · cases h
    exact .nil _
  · obtain ⟨C, -, h⟩ := bind_ok.mp h
    obtain ⟨D, -, h⟩ := bind_ok.mp h
    cases h
    refine Known.append (.single hI) (tactic_T3Loop_known hw (fun j hj => ?_) hT hs)
    cases hj
    exact Nat.lt_of_le_of_lt (furthest_le B I I) hI

/-- All patches that any tactic makes. -/
theorem tactics_known (hw : WellFormed B) (hI : I < B.count) (hT : T ≠ evicteeTrampoline)
    (h : tactics I T B = .ok r) : Known B.count r.2 := by
  obtain ⟨r₀, r₁, r₂, r₃, r₄, r₅, ⟨h₀, -⟩, ⟨h₁, -⟩, ⟨h₂, -⟩, ⟨h₃, g₃⟩, ⟨h₄, g₄⟩, ⟨h₅, -⟩, h, -⟩ :=
    tactics_tried hw hI hT h
  have hI' : ∀ {C}, Unchanged B C → I < C.count := fun hu => by rwa [hu.progress.count]
  have k₀ := tactic_T0_known hw hI h₀
  have k₁ := k₀.orTry h₁ (tactic_B1_known hI)
  have k₂ := k₁.orTry h₂ (tactic_B2_known hI)
  have k₃ := k₂.orTry h₃ (tactic_T1_known hI)
  -- T2 and T3 look at the neighbours of the instruction, in a binary that is as it was
  have hsame : ∀ {s : Binary × List Patch}, AllOrNothing I T B s → s.2 = [] → Unchanged B s.1 := by
    rintro s (⟨-, hu⟩ | ⟨hne, -⟩) hnil
    · exact hu
    · exact absurd hnil hne
  have k₄ : Known B.count r₄.2 := by
    rcases orTry_cases h₄ with ⟨-, rfl⟩ | ⟨hnil, h₄⟩
    · exact k₃
    · have hu := hsame g₃ hnil
      rw [← hu.progress.count]
      exact tactic_T2_known (hw.unchanged hu) (hI' hu) h₄
  have k₅ : Known B.count r₅.2 := by
    rcases orTry_cases h₅ with ⟨-, rfl⟩ | ⟨hnil, h₅⟩
    · exact k₄
    · have hu := hsame g₄ hnil
      rw [← hu.progress.count]
      exact tactic_T3_known (hw.unchanged hu) (hI' hu) hT h₅
  exact k₅.orTry h (tactic_B0_known hI)

end

/-! ### Runs -/

/-- The instructions that were there are where they were, and so is their original code. -/
structure SameCode (B B' : Binary) : Prop where
  count : B.count ≤ B'.count
  instr : ∀ k < B.count, (B'.Is k).offset = (B.Is k).offset ∧ (B'.Is k).size = (B.Is k).size ∧
    (B'.Is k).addr = (B.Is k).addr
  original : B'.original = B.original

theorem SameCode.of_eq (hI : B'.Is = B.Is) (hc : B'.count = B.count) (ho : B'.original = B.original) :
    SameCode B B' :=
  ⟨Nat.le_of_eq hc.symm, fun k _ => by rw [hI]; exact ⟨rfl, rfl, rfl⟩, ho⟩

theorem SameCode.of_progress (h : Progress B B') : SameCode B B' :=
  ⟨Nat.le_of_eq h.count.symm, fun k _ => (h.instrs k).fields, by rw [h.rest]⟩

theorem SameCode.of_marks (hI : ∀ k, SameMarks (B.Is k) (B'.Is k)) (hc : B'.count = B.count)
    (ho : B'.original = B.original) : SameCode B B' :=
  ⟨Nat.le_of_eq hc.symm, fun k _ => ⟨(hI k).offset, (hI k).size, (hI k).addr⟩, ho⟩

theorem SameCode.setInstr {I : Nat} {J : Instr} (h : SameMarks (B.Is I) J) : SameCode B (B.setInstr I J) :=
  .of_marks (sameMarks_setInstr h) rfl rfl

theorem SameCode.fallsThrough (hw : WellFormed B) (h : SameCode B B') {J J' : Nat} (hJ : J < B.count)
    (hfall : FallsThrough B J J') : FallsThrough B' J J' := by
  obtain ⟨hsucc, hcft⟩ := hfall
  obtain ⟨rfl, hlt, hend⟩ := succ_some hw hsucc
  have hoff : (B.Is J').offset ≠ 0 := by
    have := (hw.size (J' + 1) hJ).1
    omega
  obtain ⟨ho, hs, -⟩ := h.instr (J' + 1) hJ
  obtain ⟨ho', -, -⟩ := h.instr J' hlt
  refine ⟨?_, ?_⟩
  · simp only [succ, next, instrAt]
    rw [if_neg (by rwa [ho'])]
    simp [ho, hs, ho', hend]
  · unfold ORIG at hcft ⊢
    rwa [ho, hs, h.original]

theorem EntriesFollow.sameCode (hw : WellFormed B) (hc : SameCode B B') (h : EntriesFollow B Es) :
    EntriesFollow B' Es := by
  refine ⟨h.sorted, fun E hE => ?_⟩
  obtain ⟨hI, hfollow⟩ := h.entry E hE
  refine ⟨Nat.lt_of_lt_of_le hI hc.count, ?_⟩
  rcases hfollow with hown | ⟨J, J', hJ, haddr, hfall, hnext⟩
  · exact Or.inl (by rw [(hc.instr _ hI).2.2, hown])
  · have hJ' := (succ_some hw hfall.1).2.1
    refine Or.inr ⟨J, J', Nat.lt_of_lt_of_le hJ hc.count, ?_, hc.fallsThrough hw hJ hfall, ?_⟩
    · rw [(hc.instr J hJ).2.2, haddr]
    · rwa [(hc.instr J' hJ').2.2]

/-- `commit` sets the entry points of patched instructions only. -/
theorem EntriesFollow.commit (hw : WellFormed B) (h : EntriesFollow B B.Es) {Ps : List Patch}
    (hPs : Known B.count Ps) : EntriesFollow (B.commit Ps) (B.commit Ps).Es := by
  have hfold : ∀ (Qs : List Patch) (C : Binary), WellFormed C → EntriesFollow C C.Es → Known C.count Qs →
      EntriesFollow (Qs.foldl commitPatch C) (Qs.foldl commitPatch C).Es := by
    intro Qs
    induction Qs with
    | nil => exact fun C _ hC _ => hC
    | cons Q Qs ih =>
        intro C hwC hC hQs
        have hone : ∃ Es, commitPatch C Q = { C with Es := Es } ∧ EntriesFollow C Es := by
          unfold commitPatch
          split
          · exact ⟨C.Es, rfl, hC⟩
          · rename_i A hA
            have hsome : Q.A ≠ none := hA ▸ Option.some_ne_none A
            exact ⟨_, rfl, hC.setTrampolineEntry (hQs Q (List.mem_cons_self ..) hsome) _⟩
        obtain ⟨Es, heq, hEs⟩ := hone
        rw [List.foldl_cons, heq]
        exact ih _ (hwC.frame rfl rfl rfl hwC.allocates) (hEs.sameCode hwC (.of_eq rfl rfl rfl))
          fun P hP => hQs P (List.mem_cons_of_mem _ hP)
  unfold Binary.commit
  simp only
  split
  · exact hfold _ _ (hw.frame rfl rfl rfl hw.allocates) (h.sameCode hw (.of_eq rfl rfl rfl)) hPs
  · exact hfold _ _ hw h hPs

theorem patch_follows {I : Nat} {T : Template} {o : Option Tactic} (hw : WellFormed B) (hI : I < B.count)
    (h : EntriesFollow B B.Es) (hpatch : Binary.patch I (.user T) B = .ok (B', o)) :
    EntriesFollow B' B'.Es := by
  obtain ⟨r, hr, hcases⟩ := patch_cases hw hI (user_ne_evictee T) hpatch
  have hknown := tactics_known hw hI (user_ne_evictee T) hr
  rcases hcases with ⟨-, hu, rfl, -⟩ | ⟨P, Ps, hP, hs, rfl, -⟩
  · rw [show r.1.Es = B.Es by rw [hu.progress.rest]]
    exact h.sameCode hw (.of_progress hu.progress)
  · rw [hP, ← hs.progress.count] at hknown
    refine EntriesFollow.commit (hw.evicts hs.progress hs.evicts) ?_ hknown
    rw [show r.1.Es = B.Es by rw [hs.progress.rest]]
    exact h.sameCode hw (.of_progress hs.progress)

/-- Every step keeps what the entry points are for. -/
theorem Step.follows (hw : WellFormed B) (hstep : Step B B') (h : EntriesFollow B B.Es) :
    EntriesFollow B' B'.Es := by
  -- all steps but two leave the entry points alone
  have hsame : B'.Es = B.Es → SameCode B B' → EntriesFollow B' B'.Es := by
    intro hEs hcode
    rw [hEs]
    exact h.sameCode hw hcode
  cases hstep with
  | instruction address length offset hm =>
      obtain ⟨hc, heq⟩ := instruction_claims hm
      refine hsame (by rw [heq]) ⟨by rw [hc.count]; exact Nat.le_succ _, fun k hk => ?_, hc.original⟩
      rw [hc.Is k (Nat.ne_of_lt hk)]
      exact ⟨rfl, rfl, rfl⟩
  | reserve absolute address bytes length hm =>
      have heq := (parseReserve_only hw.allocates hm).2
      exact hsame (by rw [heq]) (.of_eq (by rw [heq]) (by rw [heq]) (by rw [heq]))
  | trampoline name template hm =>
      have heq := parseTrampoline_only hm
      exact hsame (by rw [heq]) (.of_eq (by rw [heq]) (by rw [heq]) (by rw [heq]))
  | mark I metadata T => exact hsame rfl (.setInstr ⟨rfl, rfl, rfl, rfl, rfl⟩)
  | queue I T hI hm =>
      obtain ⟨C, hC, hm⟩ := bind_ok.mp hm
      cases hm
      have heq := (restate_spec queueByte_spec (fun b => .of_open (by decide) (by decide) (by decide)) hC).1
      exact hsame (by rw [heq]) (.of_eq (by rw [heq]) (by rw [heq]) (by rw [heq]))
  | postpone options analysis => exact hsame rfl (.of_eq rfl rfl rfl)
  | options options analysis =>
      have heq := (applyOptions_same B options analysis).eq
      exact hsame (by rw [heq]) (.of_eq (by rw [heq]) (by rw [heq]) (by rw [heq]))
  | entrySet =>
      obtain ⟨Es, hEs⟩ := buildEntrySet_frame B
      have hfollow := buildEntrySet_follows hw h
      rw [hEs] at hfollow ⊢
      exact hfollow.sameCode hw (.of_eq rfl rfl rfl)
  | cursor cursor => exact hsame rfl (.of_eq rfl rfl rfl)
  | pop Q hQ => exact hsame rfl (.of_eq rfl rfl rfl)
  | dequeue I hI hm =>
      obtain ⟨hr, heq, -⟩ := unqueue_restates hm
      exact hsame (by rw [heq]) (.of_marks hr.Is hr.count hr.original)
  | patch I T hI hm => exact patch_follows hw hI h hm
  | tactic r hm =>
      have hprogress := hm.progress hw
      exact hsame (by rw [hprogress.rest]) (.of_progress hprogress)
  | free K hK hp hm =>
      have hprogress := (freeInstr_spec hw hK (hw.not_evicted hK hp) hm).1
      exact hsame (by rw [hprogress.rest]) (.of_progress hprogress)
  | flag J v => exact hsame rfl (.setInstr ⟨rfl, rfl, rfl, rfl, rfl⟩)
  | place I J i T hJ hA hm =>
      obtain ⟨ha, hin⟩ := allocatePunnedJump_spec hw.allocates hA
      have hprogress := (applyJump_placed ha hin (user_ne_evictee T) hm).1.progress
      exact hsame (by rw [hprogress.rest]) (.of_progress hprogress)

theorem Runs.follows (hi : Invariant B) (hr : Runs B B') (h : EntriesFollow B B.Es) : EntriesFollow B' B'.Es := by
  induction hr with
  | refl => exact h
  | tail hr hs ih => exact hs.follows (Runs.invariant hi hr).wellFormed ih

/-- In every reachable state the entry points are those of patched instructions and of their prologues. -/
theorem Reachable.follows (hB : Reachable B) : EntriesFollow B B.Es := by
  obtain ⟨file, mode, options, analysis, B₀, h₀, hr⟩ := hB
  refine hr.follows (parseBinary_invariant h₀) ?_
  have hEs : B₀.Es = [] := by
    obtain ⟨C, hC, h⟩ := bind_ok.mp h₀
    cases h
    have hframe : C.Es = (newBinary file mode options).Es := by
      refine foldlM_rel (R := fun D E => E.Es = D.Es) (fun D => rfl) (fun h1 h2 => ?_)
        (fun a _ D E hf => ?_) hC
      · exact h2.trans h1
      · obtain ⟨t, n, -, rfl⟩ := reserve_inv (reserveSegment_ok hf)
        rfl
    have heq := (disableTraps_same C).trans (targetAnalysis_same _ analysis)
    rw [heq.eq]
    exact hframe
  rw [hEs]
  exact ⟨List.Pairwise.nil, fun E hE => by cases hE⟩

end

end E9Patch
