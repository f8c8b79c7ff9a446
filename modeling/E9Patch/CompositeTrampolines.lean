import E9Patch.CompositeModel
import E9Patch.Fallible
import Mathlib.Data.List.Nodup
import Mathlib.Data.List.Dedup
import Mathlib.Data.List.Induction

/-!
Composite trampolines. A list of actions has a plan: the patches by their positions, with the instruction itself if
none replaces it, and a final break; what takes effect is the plan up to the first break. The template that is sent
is exactly that. The check that at most one replacement takes effect is right about the list it is given, but that
list is empty, so the trampolines are well formed only for matchings that need no check.
-/

namespace E9Tool
open Numerals (ascii)
open Fallible

/-! ### Plans -/

/-- A list up to and with its first element that stops it. -/
def upToStop {α : Type} (stops : α → Bool) : List α → List α
  | [] => []
  | a :: as => if stops a then [a] else a :: upToStop stops as

theorem upToStop_sublist {α : Type} (stops : α → Bool) (as : List α) : (upToStop stops as).Sublist as := by
  induction as with
  | nil => exact List.Sublist.slnil
  | cons a as ih =>
      rw [upToStop]
      split_ifs
      · exact (List.nil_sublist as).cons_cons a
      · exact ih.cons_cons a

/-- A step of a composite trampoline. -/
inductive PlanStep where
  | patch (r : Metadata × Patch)
  | instr
  | ret
  deriving DecidableEq, Repr

def PlanStep.stops : PlanStep → Bool
  | .patch r => r.2.kind = .BREAK
  | .instr => false
  | .ret => true

def PlanStep.tokens : PlanStep → List Token
  | .patch r => r.2.tokens
  | .instr => [.string (ascii "$instr")]
  | .ret => [.string (ascii "$BREAK")]

def PlanStep.patch? : PlanStep → Option (Metadata × Patch)
  | .patch r => some r
  | _ => none

def PlanStep.replaces (step : PlanStep) : Bool := step.patch?.any fun r => r.2.pos = .REPLACE

def atPos (pos : PatchPos) (refs : List (Metadata × Patch)) : List (Metadata × Patch) :=
  refs.filter fun r => r.2.pos = pos

/-- All steps of a list of actions: BEFORE, the replacement or else the instruction, AFTER, and a break. -/
def plan (heap : Actions) (M : List Nat) : List PlanStep :=
  let refs := patchesOf heap M
  (atPos .BEFORE refs).map .patch ++
    ((if atPos .REPLACE refs = [] then [.instr] else (atPos .REPLACE refs).map .patch) ++
      ((atPos .AFTER refs).map .patch ++ [.ret]))

/-- The steps that take effect. -/
def effective (heap : Actions) (M : List Nat) : List PlanStep := upToStop PlanStep.stops (plan heap M)

def effectiveReplaces (heap : Actions) (M : List Nat) : List PlanStep := (effective heap M).filter PlanStep.replaces

/-- A well-formed composite trampoline. -/
structure Composite (heap : Actions) (M : List Nat) (T : Template) : Prop where
  tokens : T.tokens = .string (ascii ".Ltrampoline") :: (effective heap M).flatMap PlanStep.tokens ++
    T.metadata.flatMap (dataTokens heap)
  metadata : ∀ entry ∈ T.metadata, ∃ r, .patch r ∈ effective heap M ∧ r.2.hasMetadata ∧ entry = r.1
  names : (T.metadata.map (nameOf heap)).Nodup
  complete : ∀ r, .patch r ∈ effective heap M → r.2.hasMetadata → some r.2.name ∈ T.metadata.map (nameOf heap)
  replace : (effectiveReplaces heap M).length ≤ 1

/-! ### Emission -/

variable {heap : Actions} {M : List Nat}

/-- One step, as it is sent. -/
def PlanStep.send (heap : Actions) (step : PlanStep) (s : Emission) : Emission :=
  match step with
  | .patch r => sendTrampoline heap r s
  | _ => { s with tokens := s.tokens ++ step.tokens, seen_break := step.stops }

/-- All steps up to one that stops. -/
def sendSteps (heap : Actions) (steps : List PlanStep) (s : Emission) : Emission :=
  steps.foldl (fun s step => if s.seen_break then s else step.send heap s) s

theorem sendSteps_append (steps steps' : List PlanStep) (s : Emission) :
    sendSteps heap (steps ++ steps') s = sendSteps heap steps' (sendSteps heap steps s) := List.foldl_append

theorem sendSteps_break {steps : List PlanStep} {s : Emission} (hs : s.seen_break = true) :
    sendSteps heap steps s = s := by
  induction steps with
  | nil => rfl
  | cons step steps ih => rwa [sendSteps, List.foldl_cons, if_pos hs]

theorem sendSteps_cons {step : PlanStep} {steps : List PlanStep} {s : Emission} (hs : s.seen_break = false) :
    sendSteps heap (step :: steps) s = sendSteps heap steps (step.send heap s) := by
  rw [sendSteps, List.foldl_cons, if_neg (Bool.eq_false_iff.mp hs)]
  rfl

theorem sendTrampoline_tokens (r : Metadata × Patch) (s : Emission) :
    (sendTrampoline heap r s).tokens = s.tokens ++ r.2.tokens := by
  unfold sendTrampoline
  dsimp only
  split_ifs <;> rfl

theorem sendTrampoline_break (r : Metadata × Patch) {s : Emission} (hs : s.seen_break = false) :
    (sendTrampoline heap r s).seen_break = decide (r.2.kind = .BREAK) := by
  unfold sendTrampoline
  dsimp only
  split_ifs with hbreak
  · exact (decide_eq_true hbreak).symm
  · exact hs.trans (decide_eq_false hbreak).symm
  · exact hs.trans (decide_eq_false hbreak).symm

theorem send_spec (heap : Actions) (step : PlanStep) {s : Emission} (hs : s.seen_break = false) :
    (step.send heap s).tokens = s.tokens ++ step.tokens ∧ (step.send heap s).seen_break = step.stops := by
  cases step with
  | patch r => exact ⟨sendTrampoline_tokens r s, sendTrampoline_break r hs⟩
  | instr => exact ⟨rfl, rfl⟩
  | ret => exact ⟨rfl, rfl⟩

/-- The tokens of the steps up to a break are sent, and nothing behind it. -/
theorem sendSteps_tokens (heap : Actions) (steps : List PlanStep) {s : Emission} (hs : s.seen_break = false) :
    (sendSteps heap steps s).tokens = s.tokens ++ (upToStop PlanStep.stops steps).flatMap PlanStep.tokens := by
  induction steps generalizing s with
  | nil => exact (List.append_nil _).symm
  | cons step steps ih =>
      obtain ⟨h1, h2⟩ := send_spec heap step hs
      rw [sendSteps_cons hs, upToStop]
      split_ifs with hstop
      · rw [sendSteps_break (h2.trans hstop), h1, List.flatMap_singleton]
      · rw [ih (h2.trans (Bool.eq_false_iff.mpr hstop)), h1, List.flatMap_cons, List.append_assoc]

/-! ### Metadata -/

/-- What the metadata are, when the given steps have been sent. -/
structure HasMetadata (heap : Actions) (steps : List PlanStep) (entries : List Metadata) : Prop where
  sound : ∀ entry ∈ entries, ∃ r, .patch r ∈ steps ∧ r.2.hasMetadata ∧ entry = r.1
  names : (entries.map (nameOf heap)).Nodup
  complete : ∀ r, .patch r ∈ steps → r.2.hasMetadata → some r.2.name ∈ entries.map (nameOf heap)

theorem hasMetadata_send {steps : List PlanStep} {step : PlanStep} {s : Emission}
    (hname : ∀ r, step = .patch r → nameOf heap r.1 = some r.2.name)
    (hmeta : HasMetadata heap steps s.metadata) : HasMetadata heap (steps ++ [step]) (step.send heap s).metadata := by
  have hkeep : (∀ r, step = .patch r → r.2.hasMetadata → some r.2.name ∈ s.metadata.map (nameOf heap)) →
      HasMetadata heap (steps ++ [step]) s.metadata := by
    intro hstep
    refine ⟨fun entry hentry => ?_, hmeta.names, fun r hr hdata => ?_⟩
    · obtain ⟨r, hr, hdata, heq⟩ := hmeta.sound entry hentry
      exact ⟨r, List.mem_append_left _ hr, hdata, heq⟩
    · rcases List.mem_append.mp hr with hr | hr
      · exact hmeta.complete r hr hdata
      · exact hstep r (List.mem_singleton.mp hr).symm hdata
  cases step with
  | instr => exact hkeep fun r hr => nomatch hr
  | ret => exact hkeep fun r hr => nomatch hr
  | patch r =>
      rw [PlanStep.send]
      unfold sendTrampoline
      dsimp only
      split_ifs with hbreak hnew
      · refine hkeep fun r' hr' hdata => ?_
        obtain rfl := PlanStep.patch.inj hr'
        rw [Patch.hasMetadata, hbreak] at hdata
        cases hdata
      · have hr := hname r rfl
        refine ⟨fun entry hentry => ?_, ?_, fun r' hr' hdata => ?_⟩
        · rcases List.mem_append.mp hentry with hentry | hentry
          · obtain ⟨r', hr', hdata, heq⟩ := hmeta.sound entry hentry
            exact ⟨r', List.mem_append_left _ hr', hdata, heq⟩
          · exact ⟨r, List.mem_append_right _ List.mem_cons_self, hnew.1, List.mem_singleton.mp hentry⟩
        · rw [List.map_append, List.map_singleton, hr]
          exact List.nodup_append.mpr ⟨hmeta.names, List.nodup_singleton _, fun a ha b hb => by
            rw [List.mem_singleton.mp hb]
            exact fun heq => hnew.2 (heq ▸ ha)⟩
        · rw [List.map_append, List.mem_append]
          rcases List.mem_append.mp hr' with hr' | hr'
          · exact Or.inl (hmeta.complete r' hr' hdata)
          · obtain rfl := PlanStep.patch.inj (List.mem_singleton.mp hr')
            exact Or.inr (by rw [List.map_singleton, hr]; exact List.mem_cons_self)
      · refine hkeep fun r' hr' hdata => ?_
        obtain rfl := PlanStep.patch.inj hr'
        by_contra hno
        exact hnew ⟨hdata, hno⟩

theorem sendSteps_metadata (heap : Actions) (steps : List PlanStep) {done : List PlanStep} {s : Emission} (hs : s.seen_break = false)
    (hname : ∀ r, .patch r ∈ steps → nameOf heap r.1 = some r.2.name) (hmeta : HasMetadata heap done s.metadata) :
    HasMetadata heap (done ++ upToStop PlanStep.stops steps) (sendSteps heap steps s).metadata := by
  induction steps generalizing s done with
  | nil => rwa [upToStop, List.append_nil]
  | cons step steps ih =>
      obtain ⟨-, h2⟩ := send_spec heap step hs
      have hstep := hasMetadata_send (fun r hr => hname r (hr ▸ List.mem_cons_self)) hmeta
      rw [sendSteps_cons hs, upToStop]
      split_ifs with hstop
      · rwa [sendSteps_break (h2.trans hstop)]
      · have hrest := ih (h2.trans (Bool.eq_false_iff.mpr hstop))
          (fun r hr => hname r (List.mem_cons_of_mem _ hr)) hstep
        rwa [List.append_assoc] at hrest

/-! ### The loops over the positions -/

/-- What the steps depend on, and change. -/
def Emission.core (s : Emission) : List Token × Bool × List Metadata := (s.tokens, s.seen_break, s.metadata)

theorem send_core (heap : Actions) (step : PlanStep) {s t : Emission} (h : s.core = t.core) :
    (step.send heap s).core = (step.send heap t).core := by
  obtain ⟨tokens, seen_break, seen_replace, metadata⟩ := s
  obtain ⟨tokens', seen_break', seen_replace', metadata'⟩ := t
  obtain ⟨rfl, rfl, rfl⟩ : tokens = tokens' ∧ seen_break = seen_break' ∧ metadata = metadata' := by
    simpa [Emission.core] using h
  cases step with
  | instr => rfl
  | ret => rfl
  | patch r =>
      simp only [PlanStep.send, sendTrampoline, Emission.core]
      split_ifs <;> rfl

theorem sendTrampoline_core (r : Metadata × Patch) {s t : Emission} (h : s.core = t.core) :
    (sendTrampoline heap r s).core = (sendTrampoline heap r t).core := send_core heap (.patch r) h

theorem sendTrampoline_seen_replace (r : Metadata × Patch) (s : Emission) :
    (sendTrampoline heap r s).seen_replace = s.seen_replace := by
  unfold sendTrampoline
  dsimp only
  split_ifs <;> rfl

theorem sendSteps_core {steps : List PlanStep} {s t : Emission} (h : s.core = t.core) :
    (sendSteps heap steps s).core = (sendSteps heap steps t).core := by
  have hbreak : s.seen_break = t.seen_break := congrArg (fun c => c.2.1) h
  induction steps generalizing s t with
  | nil => exact h
  | cons step steps ih =>
      cases hs : s.seen_break with
      | true => rwa [sendSteps_break hs, sendSteps_break (hbreak ▸ hs)]
      | false =>
          have hstep := send_core heap step h
          rw [sendSteps_cons hs, sendSteps_cons (hbreak ▸ hs)]
          exact ih hstep (congrArg (fun c => c.2.1) hstep)

/-- The loop over one position sends the patches of the position. -/
theorem sendPos_spec (heap : Actions) (pos : PatchPos) (refs : List (Metadata × Patch)) (s : Emission) :
    (sendPos heap pos refs s).core = (sendSteps heap ((atPos pos refs).map .patch) s).core ∧
      (sendPos heap pos refs s).seen_replace =
        (s.seen_replace || (decide (pos = .REPLACE) && !(atPos pos refs).isEmpty && !s.seen_break)) := by
  induction refs generalizing s with
  | nil => exact ⟨rfl, by simp [sendPos, atPos]⟩
  | cons r refs ih =>
      rw [sendPos, List.foldl_cons, ← sendPos]
      by_cases hpos : r.2.pos = pos
      · have hat : atPos pos (r :: refs) = r :: atPos pos refs := List.filter_cons_of_pos (decide_eq_true hpos)
        rw [hat, List.map_cons]
        by_cases hs : s.seen_break = true
        · rw [if_pos (Or.inr hs)]
          obtain ⟨h1, h2⟩ := ih s
          refine ⟨h1.trans ?_, h2.trans ?_⟩
          · rw [sendSteps_break hs, sendSteps_break hs]
          · simp [hs]
        · rw [Bool.not_eq_true] at hs
          rw [if_neg (by simp [hpos, hs])]
          obtain ⟨h1, h2⟩ := ih (sendTrampoline heap r { s with
            seen_replace := s.seen_replace || decide (pos = .REPLACE) })
          refine ⟨h1.trans ?_, h2.trans ?_⟩
          · rw [sendSteps_cons hs]
            exact sendSteps_core (sendTrampoline_core r rfl)
          · rw [sendTrampoline_seen_replace, hs]
            cases decide (pos = PatchPos.REPLACE) <;> simp
      · have hat : atPos pos (r :: refs) = atPos pos refs :=
          List.filter_cons_of_neg fun h => hpos (of_decide_eq_true h)
        rw [if_pos (Or.inl hpos), hat]
        exact ih s

theorem nameOf_patchesOf {r : Metadata × Patch} (hr : r ∈ patchesOf heap M) : nameOf heap r.1 = some r.2.name := by
  obtain ⟨action, -, hr⟩ := List.mem_flatMap.mp hr
  obtain ⟨⟨patch, idx⟩, he, rfl⟩ := List.mem_map.mp hr
  rw [nameOf]
  dsimp only
  rw [List.mk_mem_zipIdx_iff_getElem?.mp he]
  rfl

theorem nameOf_plan {r : Metadata × Patch} (hr : .patch r ∈ plan heap M) : nameOf heap r.1 = some r.2.name := by
  refine nameOf_patchesOf (M := M) ?_
  have hat : ∀ pos, .patch r ∈ (atPos pos (patchesOf heap M)).map PlanStep.patch → r ∈ patchesOf heap M := by
    intro pos h
    obtain ⟨r', hr', heq⟩ := List.mem_map.mp h
    obtain rfl := PlanStep.patch.inj heq
    exact List.mem_of_mem_filter hr'
  rw [plan] at hr
  rcases List.mem_append.mp hr with hr | hr
  · exact hat _ hr
  rcases List.mem_append.mp hr with hr | hr
  · split_ifs at hr
    · cases List.mem_singleton.mp hr
    · exact hat _ hr
  rcases List.mem_append.mp hr with hr | hr
  · exact hat _ hr
  · cases List.mem_singleton.mp hr

/-- The instruction is sent if there is no replacement. -/
theorem sendReplace_core (refs : List (Metadata × Patch)) {s t : Emission} (hs : s.seen_replace = false)
    (ht : t = sendPos heap .REPLACE refs s) :
    (if !t.seen_replace && !t.seen_break then { t with tokens := t.tokens ++ [.string (ascii "$instr")] } else t).core =
      (sendSteps heap (if atPos .REPLACE refs = [] then [.instr] else (atPos .REPLACE refs).map .patch) s).core := by
  obtain ⟨h1, h2⟩ := sendPos_spec heap .REPLACE refs s
  rw [← ht] at h1 h2
  by_cases hbreak : s.seen_break = true
  · rw [sendSteps_break hbreak] at h1 ⊢
    have htbreak : t.seen_break = true := (congrArg (fun c => c.2.1) h1).trans hbreak
    rw [if_neg (by simp [htbreak])]
    exact h1
  · rw [Bool.not_eq_true] at hbreak
    by_cases hnone : atPos .REPLACE refs = []
    · rw [hnone, List.map_nil] at h1
      have htbreak : t.seen_break = false := (congrArg (fun c => c.2.1) h1).trans hbreak
      rw [if_pos (by rw [h2, htbreak, hs, hnone]; rfl), if_pos hnone, sendSteps_cons hbreak]
      have htokens : t.tokens = s.tokens := congrArg (fun c => c.1) h1
      have hmetadata : t.metadata = s.metadata := congrArg (fun c => c.2.2) h1
      simp [Emission.core, sendSteps, PlanStep.send, PlanStep.tokens, PlanStep.stops, htokens, htbreak, hmetadata]
    · have hsome : t.seen_replace = true := by
        rw [h2, hs, hbreak]
        simpa using hnone
      rw [if_neg (by simp [hsome]), if_neg hnone]
      exact h1

/-- The template that is sent is the plan, up to its first break. -/
theorem sendComposite_eq (heap : Actions) (M : List Nat) {t : Emission}
    (ht : t = sendSteps heap (plan heap M) ⟨[.string (ascii ".Ltrampoline")], false, false, []⟩) :
    sendComposite heap M = ⟨t.tokens ++ t.metadata.flatMap (dataTokens heap), t.metadata⟩ := by
  rw [plan, sendSteps_append, sendSteps_append, sendSteps_append] at ht
  unfold sendComposite
  dsimp only
  generalize hs0 : (⟨[.string (ascii ".Ltrampoline")], false, false, []⟩ : Emission) = s0 at ht ⊢
  generalize hs1 : sendPos heap .BEFORE (patchesOf heap M) s0 = s1
  generalize hs2 : sendPos heap .REPLACE (patchesOf heap M) s1 = s2
  obtain ⟨h1, hr1⟩ := sendPos_spec heap .BEFORE (patchesOf heap M) s0
  rw [hs1] at h1 hr1
  have hreplace : s1.seen_replace = false := by
    rw [hr1, ← hs0]
    rfl
  have h3 := (sendReplace_core (patchesOf heap M) hreplace hs2.symm).trans (sendSteps_core h1)
  generalize (if !s2.seen_replace && !s2.seen_break then
    { s2 with tokens := s2.tokens ++ [.string (ascii "$instr")] } else s2) = s3 at h3 ⊢
  obtain ⟨h4, -⟩ := sendPos_spec heap .AFTER (patchesOf heap M) s3
  replace h4 := h4.trans (sendSteps_core h3)
  generalize sendPos heap .AFTER (patchesOf heap M) s3 = s4 at h4 ⊢
  generalize sendSteps heap ((atPos .AFTER (patchesOf heap M)).map .patch) _ = t4 at ht h4
  obtain ⟨tokens, seen_break, seen_replace, metadata⟩ := s4
  obtain ⟨tokens', seen_break', seen_replace', metadata'⟩ := t4
  obtain ⟨rfl, rfl, rfl⟩ : tokens = tokens' ∧ seen_break = seen_break' ∧ metadata = metadata' := by
    simpa [Emission.core] using h4
  rw [ht]
  cases seen_break <;> rfl

/-- **A composite trampoline** is what its list of actions asks for, if at most one replacement takes effect. -/
theorem composite_iff (heap : Actions) (M : List Nat) :
    Composite heap M (sendComposite heap M) ↔ (effectiveReplaces heap M).length ≤ 1 := by
  refine ⟨Composite.replace, fun hreplace => ?_⟩
  have hstart : HasMetadata heap [] [] :=
    ⟨List.forall_mem_nil _, List.nodup_nil, fun r hr => nomatch hr⟩
  have htokens := sendSteps_tokens heap (plan heap M)
    (s := ⟨[.string (ascii ".Ltrampoline")], false, false, []⟩) rfl
  obtain ⟨h1, h2, h3⟩ := sendSteps_metadata heap (plan heap M)
    (s := ⟨[.string (ascii ".Ltrampoline")], false, false, []⟩) rfl (fun r hr => nameOf_plan hr) hstart
  rw [sendComposite_eq heap M rfl]
  refine ⟨?_, h1, h2, h3, hreplace⟩
  rw [htokens]
  rfl

/-! ### The check -/

theorem upToStop_append {α : Type} (stops : α → Bool) (as bs : List α) : upToStop stops (as ++ bs) =
    if as.any stops then upToStop stops as else as ++ upToStop stops bs := by
  induction as with
  | nil => rfl
  | cons a as ih =>
      rw [List.cons_append, upToStop, ih, upToStop, List.any_cons]
      cases stops a with
      | true => rfl
      | false =>
          simp only [Bool.false_or, Bool.false_eq_true, if_false]
          split_ifs <;> rfl

/-- Behind a break the check is silent. -/
theorem seenTwice_break (seen_replace : Bool) (patches : List Patch) : seenTwice seen_replace true patches = false := by
  induction patches generalizing seen_replace with
  | nil => rfl
  | cons patch patches ih =>
      rw [seenTwice]
      split_ifs with hpos herr
      · exact ih seen_replace
      · simp at herr
      · exact ih true

theorem seenTwice_replace (refs : List (Metadata × Patch)) :
    seenTwice true false (refs.map Prod.snd) = true ↔ atPos .REPLACE refs ≠ [] := by
  induction refs with
  | nil => simp [seenTwice, atPos]
  | cons r refs ih =>
      rw [List.map_cons, seenTwice]
      by_cases hpos : r.2.pos = .REPLACE
      · rw [if_neg (not_not.mpr hpos)]
        simp [atPos, hpos]
      · rw [if_pos hpos, ih, atPos, atPos, List.filter_cons_of_neg (by simpa using hpos)]

theorem seenTwice_iff (refs : List (Metadata × Patch)) : seenTwice false false (refs.map Prod.snd) = true ↔
    2 ≤ (upToStop PlanStep.stops ((atPos .REPLACE refs).map .patch)).length := by
  induction refs with
  | nil => simp [seenTwice, atPos, upToStop]
  | cons r refs ih =>
      rw [List.map_cons, seenTwice]
      by_cases hpos : r.2.pos = .REPLACE
      · have hat : atPos .REPLACE (r :: refs) = r :: atPos .REPLACE refs := List.filter_cons_of_pos (decide_eq_true hpos)
        rw [if_neg (not_not.mpr hpos), if_neg (by simp), hat, List.map_cons, upToStop, PlanStep.stops, Bool.false_or]
        cases decide (r.2.kind = PatchKind.BREAK) with
        | true =>
            rw [seenTwice_break]
            simp
        | false =>
            rw [seenTwice_replace]
            cases atPos .REPLACE refs with
            | nil => simp [upToStop]
            | cons r' rs =>
                rw [List.map_cons, upToStop, if_neg Bool.false_ne_true]
                split_ifs <;> simp
      · rw [if_pos hpos, ih, atPos, atPos, List.filter_cons_of_neg (by simpa using hpos)]

theorem replaces_of_mem {pos : PatchPos} {refs : List (Metadata × Patch)} {steps : List PlanStep}
    (hsteps : steps.Sublist ((atPos pos refs).map .patch)) {step : PlanStep} (hstep : step ∈ steps) :
    step.replaces = decide (pos = .REPLACE) := by
  obtain ⟨r, hr, rfl⟩ := List.mem_map.mp (hsteps.subset hstep)
  have hpos : r.2.pos = pos := of_decide_eq_true (List.mem_filter.mp hr).2
  rw [← hpos]
  rfl

theorem filter_replaces {refs : List (Metadata × Patch)} {steps : List PlanStep}
    (hsteps : steps.Sublist ((atPos .REPLACE refs).map .patch)) : steps.filter PlanStep.replaces = steps :=
  List.filter_eq_self.mpr fun _ hstep => replaces_of_mem hsteps hstep

theorem filter_replaces_other {pos : PatchPos} (hpos : pos ≠ .REPLACE) {refs : List (Metadata × Patch)}
    {steps : List PlanStep} (hsteps : steps.Sublist ((atPos pos refs).map .patch)) :
    steps.filter PlanStep.replaces = [] := by
  refine List.filter_eq_nil_iff.mpr fun step hstep => ?_
  rw [replaces_of_mem hsteps hstep, decide_eq_true_iff]
  exact hpos

theorem upToStop_of_not_any {α : Type} {stops : α → Bool} {as : List α} (h : as.any stops = false) :
    upToStop stops as = as := by
  have happ := upToStop_append stops as []
  rwa [h, List.append_nil, if_neg Bool.false_ne_true, upToStop, List.append_nil] at happ

/-- The replacements that take effect, if no earlier patch is a break. -/
theorem effectiveReplaces_eq (heap : Actions) (M : List Nat) : effectiveReplaces heap M =
    if (atPos .BEFORE (patchesOf heap M)).any fun r => r.2.kind = .BREAK then []
    else upToStop PlanStep.stops ((atPos .REPLACE (patchesOf heap M)).map .patch) := by
  have hany : ((atPos .BEFORE (patchesOf heap M)).map PlanStep.patch).any PlanStep.stops =
      (atPos .BEFORE (patchesOf heap M)).any fun r => r.2.kind = .BREAK := List.any_map
  have hbefore : ∀ {steps : List PlanStep}, steps.Sublist ((atPos .BEFORE (patchesOf heap M)).map .patch) →
      steps.filter PlanStep.replaces = [] := filter_replaces_other (by decide)
  have hrest : (upToStop PlanStep.stops ((atPos .AFTER (patchesOf heap M)).map .patch ++ [.ret])).filter
      PlanStep.replaces = [] := by
    have hafter : ((atPos .AFTER (patchesOf heap M)).map PlanStep.patch).filter PlanStep.replaces = [] :=
      filter_replaces_other (by decide) (List.Sublist.refl _)
    have hsub := (upToStop_sublist PlanStep.stops
      ((atPos .AFTER (patchesOf heap M)).map .patch ++ [.ret])).filter PlanStep.replaces
    rw [List.filter_append, hafter] at hsub
    exact List.sublist_nil.mp hsub
  rw [effectiveReplaces, effective, plan, upToStop_append, hany]
  by_cases hbreak : ((atPos .BEFORE (patchesOf heap M)).any fun r => r.2.kind = .BREAK) = true
  · rw [if_pos hbreak, if_pos hbreak]
    exact hbefore (upToStop_sublist _ _)
  rw [if_neg hbreak, if_neg hbreak, List.filter_append, hbefore (List.Sublist.refl _), List.nil_append]
  by_cases hnone : atPos .REPLACE (patchesOf heap M) = []
  · rw [if_pos hnone, hnone, List.singleton_append]
    exact hrest
  rw [if_neg hnone, upToStop_append]
  by_cases hstop : ((atPos .REPLACE (patchesOf heap M)).map PlanStep.patch).any PlanStep.stops = true
  · rw [if_pos hstop]
    exact filter_replaces (upToStop_sublist _ _)
  · rw [if_neg hstop, List.filter_append, filter_replaces (List.Sublist.refl _), hrest, List.append_nil,
      upToStop_of_not_any (Bool.eq_false_iff.mpr hstop)]

/-- Made on the list itself, the check would find exactly the lists with more than one effective replacement. -/
theorem multipleReplace_iff (heap : Actions) (M : List Nat) :
    multipleReplace (M.flatMap heap) = true ↔ 2 ≤ (effectiveReplaces heap M).length := by
  have hpatches : M.flatMap heap = (patchesOf heap M).map Prod.snd := by
    rw [patchesOf, List.map_flatMap]
    refine List.flatMap_congr fun action _ => ?_
    rw [List.map_map]
    exact (List.zipIdx_map_fst 0 _).symm
  have hbefore : ((patchesOf heap M).map Prod.snd).any (fun patch => patch.kind = .BREAK ∧ patch.pos = .BEFORE) =
      (atPos .BEFORE (patchesOf heap M)).any fun r => r.2.kind = .BREAK := by
    rw [atPos, List.any_map, List.any_filter]
    refine congrArg (fun p => List.any (patchesOf heap M) p) (funext fun r => ?_)
    simp [Bool.and_comm]
  rw [multipleReplace, hpatches, hbefore, effectiveReplaces_eq]
  split_ifs with hbreak
  · rw [hbreak, seenTwice_break]
    simp
  · rw [Bool.eq_false_iff.mpr hbreak]
    exact seenTwice_iff _

/-! ### Matchings -/

/-- Lists of actions of which neither is less than the other are equal. -/
theorem matchingCmp_eq {M N : List Nat} : (!MatchingCmp M N && !MatchingCmp N M) = true ↔ M = N := by
  induction M generalizing N with
  | nil =>
      cases N with
      | nil => simp [MatchingCmp]
      | cons b N => simp [MatchingCmp]
  | cons a M ih =>
      cases N with
      | nil => simp [MatchingCmp]
      | cons b N =>
          rw [MatchingCmp, MatchingCmp, List.cons.injEq]
          rcases Nat.lt_trichotomy a b with h | rfl | h
          · simp [h, h.ne]
          · simpa using ih
          · simp [h, h.ne', h.not_gt]

theorem mapFind_none {map : List (List Nat × Nat)} : mapFind map M = none ↔ ∀ e ∈ map, e.1 ≠ M := by
  rw [mapFind, Option.map_eq_none_iff, List.find?_eq_none]
  exact forall₂_congr fun e _ => not_congr (matchingCmp_eq.trans eq_comm)

theorem mapFind_some {map : List (List Nat × Nat)} {idx : Nat} (h : mapFind map M = some idx) : (M, idx) ∈ map := by
  rw [mapFind] at h
  obtain ⟨⟨N, idx'⟩, he, rfl⟩ := Option.map_eq_some_iff.mp h
  have heq : (!MatchingCmp M N && !MatchingCmp N M) = true :=
    List.find?_some (p := fun e : List Nat × Nat => !MatchingCmp M e.1 && !MatchingCmp e.1 M) he
  rw [matchingCmp_eq.mp heq]
  exact List.mem_of_find?_eq_some he

/-- In a list without duplicates each matching is found at its index. -/
theorem mapFind_zipIdx {Ls : List (List Nat)} (hLs : Ls.Nodup) {idx : Nat} :
    mapFind Ls.zipIdx M = some idx ↔ Ls[idx]? = some M := by
  refine ⟨fun h => List.mk_mem_zipIdx_iff_getElem?.mp (mapFind_some h), fun h => ?_⟩
  cases hfind : mapFind Ls.zipIdx M with
  | none => exact absurd rfl (mapFind_none.mp hfind _ (List.mk_mem_zipIdx_iff_getElem?.mpr h))
  | some idx' =>
      have h' := List.mk_mem_zipIdx_iff_getElem?.mp (mapFind_some hfind)
      obtain ⟨hlt, heq⟩ := List.getElem?_eq_some_iff.mp h
      obtain ⟨hlt', heq'⟩ := List.getElem?_eq_some_iff.mp h'
      rw [(hLs.getElem_inj_iff).mp (heq'.trans heq.symm)]

theorem mapInsert_zipIdx {Ls : List (List Nat)} (hM : M ∉ Ls) : mapInsert Ls.zipIdx M Ls.length = (Ls ++ [M]).zipIdx := by
  have hnone : mapFind Ls.zipIdx M = none := by
    refine mapFind_none.mpr fun e he heq => hM ?_
    exact heq ▸ List.mem_of_getElem? (List.mem_zipIdx_iff_getElem?.mp he)
  rw [mapInsert, hnone, List.zipIdx_append]
  simp

/-- The cache has each saved matching under its index. -/
structure MatchingCache.Valid (Ms : MatchingCache) : Prop where
  cache : Ms.cache = Ms.matchings.zipIdx
  nodup : Ms.matchings.Nodup

theorem MatchingCache.Valid.find {Ms : MatchingCache} (h : Ms.Valid) {idx : Nat} :
    mapFind Ms.cache M = some idx ↔ Ms.matchings[idx]? = some M := by
  rw [h.cache]
  exact mapFind_zipIdx h.nodup

/-- Saving a matching never fails. -/
theorem saveMatching_spec (heap : Actions) {Ms : MatchingCache} (h : Ms.Valid) (M : List Nat) :
    ∃ idx Ms', saveMatching heap M Ms = .ok (idx, Ms') ∧ Ms'.Valid ∧ Ms'.matchings[idx]? = some M ∧
      Ms.matchings <+: Ms'.matchings ∧ ∀ N, N ∈ Ms'.matchings ↔ N ∈ Ms.matchings ∨ N = M := by
  unfold saveMatching
  dsimp only
  cases hfind : mapFind Ms.cache M with
  | some idx =>
      have hidx := h.find.mp hfind
      refine ⟨idx, Ms, rfl, h, hidx, List.prefix_rfl, fun N => ⟨Or.inl, ?_⟩⟩
      rintro (hN | rfl)
      · exact hN
      · exact List.mem_of_getElem? hidx
  | none =>
      have hnew : M ∉ Ms.matchings := by
        intro hmem
        obtain ⟨idx, hidx⟩ := List.mem_iff_getElem?.mp hmem
        rw [h.find.mpr hidx] at hfind
        cases hfind
      refine ⟨_, _, rfl, ⟨?_, ?_⟩, ?_, List.prefix_append _ _, fun N => ?_⟩
      · rw [h.cache]
        exact mapInsert_zipIdx hnew
      · exact List.nodup_append.mpr ⟨h.nodup, List.nodup_singleton M, fun a ha b hb heq => hnew (by
          rwa [heq, List.mem_singleton.mp hb] at ha)⟩
      · exact List.getElem?_concat_length
      · rw [List.mem_append, List.mem_singleton]

/-- What the loop over the instructions has saved, after the given ones. -/
structure Matched (Ls : List (List Nat)) (s : MatchingCache × List (Option Nat)) : Prop where
  valid : s.1.Valid
  mem : ∀ M : List Nat, M ∈ s.1.matchings ↔ M ∈ Ls ∧ M ≠ []
  length : s.2.length = Ls.length
  index : ∀ (i : Nat) (M : List Nat), Ls[i]? = some M → (M = [] ∧ s.2[i]? = some none) ∨
    (M ≠ [] ∧ ∃ idx : Nat, s.1.matchings[idx]? = some M ∧ s.2[i]? = some (some (idx % 2 ^ 24)))

theorem getElem?_concat_iff {α : Type} {as : List α} {a b : α} {i : Nat} :
    (as ++ [a])[i]? = some b ↔ as[i]? = some b ∨ (i = as.length ∧ b = a) := by
  rcases Nat.lt_trichotomy i as.length with h | rfl | h
  · rw [List.getElem?_append_left h]
    exact (or_iff_left fun heq => h.ne heq.1).symm
  · rw [List.getElem?_concat_length, List.getElem?_eq_none le_rfl, Option.some.injEq]
    simp [eq_comm]
  · rw [List.getElem?_eq_none (by simp; omega), List.getElem?_eq_none h.le]
    simp [h.ne']

theorem matchInstr_spec {Ls : List (List Nat)} {s : MatchingCache × List (Option Nat)} (hs : Matched Ls s)
    (M : List Nat) : ∃ t, matchInstr heap s M = .ok t ∧ Matched (Ls ++ [M]) t := by
  obtain ⟨h1, h2, h3, h4⟩ := hs
  unfold matchInstr
  split_ifs with hM
  · subst hM
    refine ⟨_, rfl, h1, fun N => (h2 N).trans ?_, by simp [h3], fun i N hN => ?_⟩
    · rw [List.mem_append, List.mem_singleton]
      exact and_congr_left fun hne => (or_iff_left hne).symm
    · rcases getElem?_concat_iff.mp hN with hN | ⟨rfl, rfl⟩
      · obtain ⟨hnil, hnone⟩ | ⟨hne, idx, hidx, hsome⟩ := h4 i N hN
        · exact Or.inl ⟨hnil, getElem?_concat_iff.mpr (Or.inl hnone)⟩
        · exact Or.inr ⟨hne, idx, hidx, getElem?_concat_iff.mpr (Or.inl hsome)⟩
      · exact Or.inl ⟨rfl, getElem?_concat_iff.mpr (Or.inr ⟨h3.symm, rfl⟩)⟩
  · obtain ⟨idx, Ms', hsave, g1, g2, g3, g4⟩ := saveMatching_spec heap h1 M
    refine ⟨(Ms', s.2 ++ [some (idx % 2 ^ 24)]), map_ok.mpr ⟨_, hsave, rfl⟩, g1, fun N => ?_, by simp [h3],
      fun i N hN => ?_⟩
    · rw [g4, h2, List.mem_append, List.mem_singleton, or_and_right]
      refine or_congr_right ⟨fun heq => ⟨heq, heq ▸ hM⟩, And.left⟩
    · rcases getElem?_concat_iff.mp hN with hN | ⟨rfl, rfl⟩
      · obtain ⟨hnil, hnone⟩ | ⟨hne, idx', hidx', hsome⟩ := h4 i N hN
        · exact Or.inl ⟨hnil, getElem?_concat_iff.mpr (Or.inl hnone)⟩
        · have hkeep : Ms'.matchings[idx']? = some N := by
            obtain ⟨added, hadded⟩ := g3
            rw [← hadded, List.getElem?_append_left (List.getElem?_eq_some_iff.mp hidx').1]
            exact hidx'
          exact Or.inr ⟨hne, idx', hkeep, getElem?_concat_iff.mpr (Or.inl hsome)⟩
      · exact Or.inr ⟨hM, idx, g2, getElem?_concat_iff.mpr (Or.inr ⟨h3.symm, rfl⟩)⟩

theorem matchInstrs_spec (heap : Actions) (Ls : List (List Nat)) :
    ∃ s, matchInstrs heap Ls = .ok s ∧ Matched Ls s := by
  have hrun : ∀ (rest before : List (List Nat)) (s : MatchingCache × List (Option Nat)), Matched before s →
      ∃ t, rest.foldlM (matchInstr heap) s = .ok t ∧ Matched (before ++ rest) t := by
    intro rest
    induction rest with
    | nil => exact fun before s hs => ⟨s, rfl, by rwa [List.append_nil]⟩
    | cons M rest ih =>
        intro before s hs
        obtain ⟨t, ht, hmatched⟩ := matchInstr_spec hs M
        obtain ⟨u, hu, hmatched'⟩ := ih _ t hmatched
        refine ⟨u, ?_, ?_⟩
        · rw [List.foldlM_cons, bind_ok]
          exact ⟨t, ht, hu⟩
        · rwa [List.append_assoc] at hmatched'
  refine hrun Ls [] (⟨[], []⟩, []) ⟨⟨rfl, List.nodup_nil⟩, fun M => ?_, rfl, fun i M hM => ?_⟩
  · simp
  · cases hM

/-- The template of a matching is its own. -/
theorem MatchingCache.Valid.templateOf {Ms : MatchingCache} (h : Ms.Valid) {idx : Nat} (hidx : Ms.matchings[idx]? = some M) :
    E9Tool.templateOf Ms idx = idx := by
  have hmap : ∀ Ls : List (List Nat), Ls.Nodup →
      Ls.zipIdx.foldl (fun tmps e => mapInsert tmps e.1 e.2) [] = Ls.zipIdx := by
    intro Ls
    induction Ls using List.reverseRecOn with
    | nil => exact fun _ => rfl
    | append_singleton Ls M ih =>
        intro hnodup
        obtain ⟨h1, -, h2⟩ := List.nodup_append.mp hnodup
        have hM : M ∉ Ls := fun hmem => h2 M hmem M List.mem_cons_self rfl
        have hinsert := mapInsert_zipIdx hM
        rw [List.zipIdx_append] at hinsert ⊢
        rw [List.foldl_append, ih h1, ← hinsert, Nat.zero_add]
        rfl
  rw [E9Tool.templateOf, templateMap, hmap Ms.matchings h.nodup, hidx]
  show (mapFind Ms.matchings.zipIdx M).getD 0 = idx
  rw [(mapFind_zipIdx h.nodup).mpr hidx]
  rfl

/-- All composite trampolines of a run are well formed: saving stops at an instruction with more than one effective
replacement, or else each matched instruction has a template that is its own, shared with equal lists only. -/
def WellFormedRun (heap : Actions) (Ls : List (List Nat)) : Prop :=
  match matchInstrs heap Ls with
  | .error _ => ∃ M ∈ Ls, 2 ≤ (effectiveReplaces heap M).length
  | .ok s =>
    (∀ (i : Nat) (M : List Nat), Ls[i]? = some M → M ≠ [] → ∃ k N, s.2[i]? = some (some k) ∧
      s.1.matchings[templateOf s.1 k]? = some N ∧ Composite heap M (sendComposite heap N)) ∧
    ∀ (i j k l : Nat) (M N : List Nat), Ls[i]? = some M → Ls[j]? = some N → s.2[i]? = some (some k) →
      s.2[j]? = some (some l) → templateOf s.1 k = templateOf s.1 l → M = N

/-- The different lists of actions. -/
def differentMatchings (Ls : List (List Nat)) : List (List Nat) := (Ls.filter fun M => M ≠ []).dedup

theorem Matched.length_eq {Ls : List (List Nat)} {s : MatchingCache × List (Option Nat)} (hs : Matched Ls s) :
    s.1.matchings.length = (differentMatchings Ls).length := by
  refine List.Perm.length_eq ((List.perm_ext_iff_of_nodup hs.valid.nodup (List.nodup_dedup _)).mpr fun M => ?_)
  rw [hs.mem, List.mem_dedup, List.mem_filter, decide_eq_true_iff]

/-- **Composite trampolines.** -/
theorem wellFormedRun_iff (heap : Actions) (Ls : List (List Nat)) : WellFormedRun heap Ls ↔
    (∀ M ∈ Ls, (effectiveReplaces heap M).length ≤ 1) ∧ (differentMatchings Ls).length ≤ 2 ^ 24 := by
  obtain ⟨s, hrun, hs⟩ := matchInstrs_spec heap Ls
  rw [WellFormedRun, hrun, ← hs.length_eq]
  dsimp only
  constructor
  · rintro ⟨hown, hshare⟩
    refine ⟨fun M hM => ?_, ?_⟩
    · obtain ⟨i, hi⟩ := List.mem_iff_getElem?.mp hM
      by_cases hne : M = []
      · rw [hne]
        exact Nat.zero_le 1
      · obtain ⟨k, N, -, -, hcomposite⟩ := hown i M hi hne
        exact hcomposite.replace
    · by_contra hlen
      rw [not_le] at hlen
      have hpos : 0 < s.1.matchings.length := Nat.zero_lt_of_lt hlen
      -- the matching at 2 ^ 24 has the template of the first one
      obtain ⟨hM, hMne⟩ := (hs.mem _).mp (List.getElem_mem hlen)
      obtain ⟨hN, hNne⟩ := (hs.mem _).mp (List.getElem_mem hpos)
      obtain ⟨i, hi⟩ := List.mem_iff_getElem?.mp hM
      obtain ⟨j, hj⟩ := List.mem_iff_getElem?.mp hN
      obtain ⟨hnil, -⟩ | ⟨-, idx, hidx, hki⟩ := hs.index i _ hi
      · exact hMne hnil
      obtain ⟨hnil, -⟩ | ⟨-, idx', hidx', hlj⟩ := hs.index j _ hj
      · exact hNne hnil
      obtain ⟨hlt, heq⟩ := List.getElem?_eq_some_iff.mp hidx
      obtain ⟨hlt', heq'⟩ := List.getElem?_eq_some_iff.mp hidx'
      obtain rfl := hs.valid.nodup.getElem_inj_iff.mp heq
      obtain rfl := hs.valid.nodup.getElem_inj_iff.mp heq'
      have hsame := hshare i j _ _ _ _ hi hj hki hlj rfl
      exact absurd (hs.valid.nodup.getElem_inj_iff.mp hsame) (by decide)
  · rintro ⟨hreplace, hlen⟩
    have hindex : ∀ (i : Nat) (M : List Nat) (k : Nat), Ls[i]? = some M → s.2[i]? = some (some k) →
        s.1.matchings[k]? = some M := by
      intro i M k hM hk
      obtain ⟨-, hnone⟩ | ⟨-, idx, hidx, hsome⟩ := hs.index i M hM
      · rw [hk] at hnone
        cases hnone
      · obtain ⟨hlt, -⟩ := List.getElem?_eq_some_iff.mp hidx
        rw [hk, Nat.mod_eq_of_lt (hlt.trans_le hlen)] at hsome
        rwa [Option.some.inj (Option.some.inj hsome)]
    refine ⟨fun i M hM hne => ?_, fun i j k l M N hM hN hk hl hsame => ?_⟩
    · obtain ⟨hnil, -⟩ | ⟨-, idx, hidx, hsome⟩ := hs.index i M hM
      · exact absurd hnil hne
      · have hk := hindex i M _ hM hsome
        refine ⟨_, M, hsome, ?_, (composite_iff heap M).mpr (hreplace M (List.mem_of_getElem? hM))⟩
        rw [hs.valid.templateOf hk]
        exact hk
    · have hk' := hindex i M k hM hk
      have hl' := hindex j N l hN hl
      rw [hs.valid.templateOf hk', hs.valid.templateOf hl'] at hsame
      rw [hsame, hl'] at hk'
      exact (Option.some.inj hk').symm

/-- Two actions that both replace the instruction. -/
def replacing : Actions := fun action =>
  [⟨if action = 1 then ascii "$trap" else ascii "$empty", if action = 1 then .TRAP else .EMPTY, .REPLACE,
    ⟨0, false, false, false⟩⟩]

/-- Two replacements of one instruction are not refused, and both are sent. -/
theorem wellFormedRun_replacing : ¬WellFormedRun replacing [[1, 2]] ∧
    (sendComposite replacing [1, 2]).tokens =
      [.string (ascii ".Ltrampoline"), .string (ascii "$trap"), .string (ascii "$empty"), .string (ascii "$BREAK")] := by
  refine ⟨fun h => ?_, by decide⟩
  obtain ⟨s, hrun, -⟩ := matchInstrs_spec replacing [[1, 2]]
  rw [WellFormedRun, hrun] at h
  obtain ⟨k, N, -, -, hcomposite⟩ := h.1 0 [1, 2] rfl (by decide)
  exact absurd hcomposite.replace (by decide)

end E9Tool
