import E9Patch.QueueTheorems

/-!
Options are applied between the same patches as their messages were sent: at once while nothing was flushed
yet, and else as entries of the queue. That goes wrong where something waits in the queue already when the
options are applied at once, as it can in batch mode.
-/

namespace E9Patch
open Bytes Binary Fallible

/-- No patch waits in the queue. -/
def NoPatchWaits (B : Binary) : Prop := waiting B.Q = []

/-- The options that result from applying some in their order. -/
def applyAll (B : Binary) (os : List (Options × Option (Nat → Bool))) : Binary :=
  os.foldl (fun B o => applyOptions B o.1 o.2) B

/-- The options, and what applying others depends on. -/
def SameSettings (B B' : Binary) : Prop :=
  B'.options = B.options ∧ B'.targets = B.targets ∧ B'.mode = B.mode

/-- The call of `patch` at the end of `pre` runs under the options of the messages that came before the one
that it is for. -/
def RunsUnder (B₀ : Binary) (pre : List Event) (I : Nat) (T : Template) (options : Options) : Prop :=
  ∃ a b, pre = a ++ .accepted I T :: b ∧ sent a = settings pre ∧
    options = (applyAll B₀ (sent a)).options

/-- What holds of options between the actions of a run. -/
structure InStep (B₀ : Binary) (log : List Event) (B : Binary) : Prop where
  sent : sent log = settings log ++ postponed B.Q
  waits : ∀ pre I T post, B.Q = pre ++ .patch I T :: post →
    ∃ a b, log = a ++ .accepted I T :: b ∧ E9Patch.sent a = settings log ++ postponed pre
  early : B.cursor = INTPTR_MAX → postponed B.Q = []
  cursor : B.cursor ≤ INTPTR_MAX
  settings : SameSettings (applyAll B₀ (settings log)) B
  past : ∀ pre I T options success post, log = pre ++ .patched I T options success :: post →
    RunsUnder B₀ pre I T options

section
variable {B₀ B B' C : Binary} {log es : List Event}

theorem SameSettings.trans (h : SameSettings B B') (h' : SameSettings B' C) : SameSettings B C :=
  ⟨h'.1.trans h.1, h'.2.1.trans h.2.1, h'.2.2.trans h.2.2⟩

/-- Applying options depends on the settings only. -/
theorem SameSettings.applyOptions (h : SameSettings B B') (options : Options)
    (analysis : Option (Nat → Bool)) :
    SameSettings (applyOptions B options analysis) (E9Patch.applyOptions B' options analysis) := by
  obtain ⟨-, ht, hm⟩ := h
  have htarget : ∀ {C C' : Binary}, SameSettings C C' →
      SameSettings (targetAnalysis C analysis) (targetAnalysis C' analysis) := by
    intro C C' hs
    obtain ⟨h1, h2, h3⟩ := hs
    unfold targetAnalysis
    rw [h1, h2, h3]
    split
    · exact ⟨h1, h2, h3⟩
    · split
      · exact ⟨rfl, rfl, rfl⟩
      · exact ⟨rfl, rfl, rfl⟩
      · exact ⟨rfl, rfl, rfl⟩
  unfold E9Patch.applyOptions
  simp only
  apply htarget
  -- the loader base is no setting
  rw [hm]
  cases B.mode <;> exact ⟨rfl, ht, rfl⟩

theorem applyAll_append (os : List (Options × Option (Nat → Bool))) (o : Options × Option (Nat → Bool)) :
    applyAll B (os ++ [o]) = applyOptions (applyAll B os) o.1 o.2 := by
  rw [applyAll, List.foldl_append]
  rfl

/-- A past call stays one when more happens. -/
theorem past_append (h : ∀ pre I T options success post, log = pre ++ .patched I T options success :: post →
      RunsUnder B₀ pre I T options)
    (hes : ∀ pre I T options success post, es = pre ++ .patched I T options success :: post →
      RunsUnder B₀ (log ++ pre) I T options) {pre post : List Event} {I : Nat} {T : Template}
    {options : Options} {success : Bool}
    (heq : log ++ es = pre ++ .patched I T options success :: post) : RunsUnder B₀ pre I T options := by
  rcases List.append_eq_append_iff.mp heq with ⟨pre', rfl, hes'⟩ | ⟨post', hlog, hpost⟩
  · exact hes pre' I T options success post hes'
  · cases post' with
    | nil =>
        rw [List.append_nil] at hlog
        subst hlog
        have := hes [] I T options success post hpost.symm
        rwa [List.append_nil] at this
    | cons e post' =>
        rw [List.cons_append, List.cons.injEq] at hpost
        obtain ⟨rfl, -⟩ := hpost
        exact h pre I T options success post' hlog

/-- Actions by which nothing happens to the queue or to the options. -/
theorem InStep.quiet (h : InStep B₀ log B) (hQ : B'.Q = B.Q) (hc : B'.cursor ≤ B.cursor)
    (hs : SameSettings B B') : InStep B₀ log B' := by
  refine ⟨by rw [hQ]; exact h.sent, fun pre I T post hq => h.waits pre I T post (hQ ▸ hq), fun hmax => ?_,
    hc.trans h.cursor, h.settings.trans hs, h.past⟩
  rw [hQ]
  exact h.early (Int.le_antisymm h.cursor (hmax ▸ hc))

/-- An action without events. -/
theorem InStep.silent (h : InStep B₀ log B) (hQ : B'.Q = B.Q) (hc : B'.cursor ≤ B.cursor)
    (hs : SameSettings B B') : InStep B₀ (log ++ []) B' := by
  rw [List.append_nil]
  exact h.quiet hQ hc hs

theorem postponed_append (Q Q' : List PatchEntry) : postponed (Q ++ Q') = postponed Q ++ postponed Q' :=
  List.filterMap_append

/-- A patch message is accepted. -/
theorem InStep.accept {I : Nat} {T : Template} (h : InStep B₀ log B) (hQ : B'.Q = B.Q ++ [.patch I T])
    (hc : B'.cursor = B.cursor) (hs : SameSettings B B') : InStep B₀ (log ++ [.accepted I T]) B' := by
  have hsent : E9Patch.sent [Event.accepted I T] = [] := rfl
  have hset : E9Patch.settings [Event.accepted I T] = [] := rfl
  have hpost : postponed B'.Q = postponed B.Q := by
    rw [hQ, postponed_append]
    exact List.append_nil _
  refine ⟨?_, fun pre J U post hq => ?_, fun hmax => ?_, hc ▸ h.cursor, ?_, fun pre J U o s post heq => ?_⟩
  · rw [sent_append, settings_append, hsent, hset, List.append_nil, List.append_nil, hpost, h.sent]
  · rw [settings_append, hset, List.append_nil]
    rw [hQ] at hq
    rcases List.append_eq_append_iff.mp hq with ⟨pre', hpre, hlast⟩ | ⟨post', hold, hlast⟩
    · -- the new entry itself
      cases pre' with
      | nil =>
          cases hlast
          rw [List.append_nil] at hpre
          exact ⟨log, [], rfl, by rw [hpre]; exact h.sent⟩
      | cons e pre' => cases pre' <;> cases hlast
    · cases post' with
      | nil =>
          cases hlast
          rw [List.append_nil] at hold
          exact ⟨log, [], rfl, by rw [← hold]; exact h.sent⟩
      | cons e post' =>
          rw [List.cons_append, List.cons.injEq] at hlast
          obtain ⟨rfl, -⟩ := hlast
          obtain ⟨a, b, rfl, ha⟩ := h.waits pre J U post' hold
          exact ⟨a, b ++ [.accepted I T], by simp, ha⟩
  · rw [hpost]
    exact h.early (hc ▸ hmax)
  · rw [settings_append, hset, List.append_nil]
    exact h.settings.trans hs
  · refine past_append h.past (fun pre' K V o' s' post' hes => ?_) heq
    cases pre' with
    | nil => cases hes
    | cons e pre' => cases pre' <;> cases hes

/-- An options message whose options are applied later. -/
theorem InStep.postpone {o : Options} {a : Option (Nat → Bool)} (h : InStep B₀ log B)
    (hc : B.cursor ≠ INTPTR_MAX) : InStep B₀ (log ++ [.sent o a]) { B with Q := B.Q ++ [.options o a] } := by
  have hsent : E9Patch.sent [Event.sent o a] = [(o, a)] := rfl
  have hset : E9Patch.settings [Event.sent o a] = [] := rfl
  refine ⟨?_, fun pre J U post hq => ?_, fun hmax => absurd hmax hc, h.cursor, ?_,
    fun pre J U o' s post heq => ?_⟩
  · rw [sent_append, settings_append, hsent, hset, List.append_nil, h.sent]
    show _ = _ ++ postponed (B.Q ++ [.options o a])
    rw [postponed_append, List.append_assoc]
    rfl
  · rw [settings_append, hset, List.append_nil]
    rcases List.append_eq_append_iff.mp (show B.Q ++ [.options o a] = pre ++ .patch J U :: post from hq) with
      ⟨pre', hpre, hlast⟩ | ⟨post', hold, hlast⟩
    · cases pre' with
      | nil => cases hlast
      | cons e pre' => cases pre' <;> cases hlast
    · cases post' with
      | nil => cases hlast
      | cons e post' =>
          rw [List.cons_append, List.cons.injEq] at hlast
          obtain ⟨rfl, -⟩ := hlast
          obtain ⟨a', b, rfl, ha⟩ := h.waits pre J U post' hold
          exact ⟨a', b ++ [.sent o a], by simp, ha⟩
  · rw [settings_append, hset, List.append_nil]
    exact h.settings
  · refine past_append h.past (fun pre' K V o' s' post' hes => ?_) heq
    cases pre' with
    | nil => cases hes
    | cons e pre' => cases pre' <;> cases hes

/-- No call of `patch` is among the events of options. -/
theorem no_call {es : List Event} (hes : ∀ e ∈ es, ∀ I T o s, e ≠ .patched I T o s) {pre post : List Event}
    {I : Nat} {T : Template} {o : Options} {s : Bool} (h : es = pre ++ .patched I T o s :: post) : False :=
  hes (.patched I T o s) (by rw [h]; simp) I T o s rfl

/-- Options are applied at once, while nothing waits. -/
theorem InStep.options {o : Options} {a : Option (Nat → Bool)} (h : InStep B₀ log B)
    (hc : B.cursor = INTPTR_MAX) (hw : NoPatchWaits B) :
    InStep B₀ (log ++ [.sent o a, .applied o a]) (applyOptions B o a) := by
  have hsent : E9Patch.sent [Event.sent o a, .applied o a] = [(o, a)] := rfl
  have hset : E9Patch.settings [Event.sent o a, .applied o a] = [(o, a)] := rfl
  have hsame := (applyOptions_same B o a).eq
  have hQ : (applyOptions B o a).Q = B.Q := by rw [hsame]
  have hcur : (applyOptions B o a).cursor = B.cursor := by rw [hsame]
  have hpost := h.early hc
  refine ⟨?_, fun pre J U post hq => ?_, fun _ => by rw [hQ, hpost], hcur ▸ h.cursor, ?_,
    fun pre J U o' s post heq => ?_⟩
  · rw [sent_append, settings_append, hsent, hset, hQ, hpost, List.append_nil, h.sent, hpost, List.append_nil]
  · have hm : (J, U) ∈ waiting B.Q := mem_waiting.mpr (by rw [← hQ, hq]; simp)
    rw [hw] at hm
    cases hm
  · rw [settings_append, hset, applyAll_append]
    exact h.settings.applyOptions o a
  · exact past_append h.past (fun pre' K V o' s' post' hes => (no_call (by simp) hes).elim) heq

/-- An entry with options leaves the queue. -/
theorem InStep.leave_options {o : Options} {a : Option (Nat → Bool)} {Q : List PatchEntry}
    (h : InStep B₀ log B) (hQ : B.Q = .options o a :: Q) :
    InStep B₀ (log ++ [.applied o a]) { applyOptions B o a with Q := Q } := by
  have hsent : E9Patch.sent [Event.applied o a] = [] := rfl
  have hset : E9Patch.settings [Event.applied o a] = [(o, a)] := rfl
  have hpost : postponed B.Q = (o, a) :: postponed Q := by
    rw [hQ]
    rfl
  have hcur : (applyOptions B o a).cursor = B.cursor := by rw [(applyOptions_same B o a).eq]
  refine ⟨?_, fun pre J U post hq => ?_, fun hmax => ?_, hcur ▸ h.cursor, ?_,
    fun pre J U o' s post heq => ?_⟩
  · rw [sent_append, settings_append, hsent, hset, List.append_nil, h.sent, hpost, List.append_assoc]
    rfl
  · obtain ⟨a', b, hlog, ha⟩ := h.waits (.options o a :: pre) J U post (by rw [hQ, show Q = _ from hq]; rfl)
    refine ⟨a', b ++ [.applied o a], by rw [hlog]; simp, ?_⟩
    rw [ha, settings_append log, hset, List.append_assoc]
    rfl
  · have hnone := h.early (hcur ▸ hmax)
    rw [hpost] at hnone
    cases hnone
  · rw [settings_append, hset, applyAll_append]
    exact h.settings.applyOptions o a
  · exact past_append h.past (fun pre' K V o' s' post' hes => (no_call (by simp) hes).elim) heq

theorem patch_rest {I : Nat} {T : Template} {t : Option Tactic} (hw : WellFormed B) (hI : I < B.count)
    (h : Binary.patch I (.user T) B = .ok (B', t)) : SameSettings B B' ∧ B'.cursor = B.cursor := by
  rcases patch_spec hw hI h with ⟨-, hu⟩ | ⟨C, P, Ps, -, hs, rfl⟩
  · rw [hu.progress.rest]
    exact ⟨⟨rfl, rfl, rfl⟩, rfl⟩
  · obtain ⟨Es, Traps, hC⟩ := commit_frame C (P :: Ps)
    rw [hC, hs.progress.rest]
    exact ⟨⟨rfl, rfl, rfl⟩, rfl⟩

/-- An entry for a patch leaves the queue. -/
theorem InStep.leave_patch {I : Nat} {T : Template} {Q : List PatchEntry} (h : InStep B₀ log B)
    (hi : Invariant B) (hQ : B.Q = .patch I T :: Q) (he : flushEntryLog B (.patch I T) = .ok (C, es)) :
    InStep B₀ (log ++ es) { C with Q := Q } := by
  have hI : I < B.count := hi.queue I T (by rw [hQ]; simp)
  have hpost : postponed B.Q = postponed Q := by
    rw [hQ]
    rfl
  have hstep : SameSettings B C ∧ C.cursor = B.cursor ∧ E9Patch.sent es = [] ∧ E9Patch.settings es = [] ∧
      ∀ pre K V o s post, es = pre ++ .patched K V o s :: post →
        pre = [] ∧ K = I ∧ V = T ∧ o = B.options := by
    rcases flushEntryLog_patch he with ⟨-, D, t, hD, hpatch, rfl⟩ | ⟨-, rfl, rfl⟩
    · obtain ⟨hs, hB', -⟩ := unqueue_restates hD
      have hwD := ((Step.dequeue I hI hD).ok hi.wellFormed).wellFormed
      obtain ⟨hsame, hcur⟩ := patch_rest hwD (by rwa [hs.count]) hpatch
      have hD' : SameSettings B D ∧ D.cursor = B.cursor := by
        rw [hB']
        exact ⟨⟨rfl, rfl, rfl⟩, rfl⟩
      refine ⟨hD'.1.trans hsame, hcur.trans hD'.2, rfl, rfl, fun pre K V o s post hes => ?_⟩
      cases pre with
      | nil =>
          cases hes
          exact ⟨rfl, rfl, rfl, hD'.1.1⟩
      | cons e pre => cases pre <;> cases hes
    · exact ⟨⟨rfl, rfl, rfl⟩, rfl, rfl, rfl, fun pre K V o s post hes => (no_call (by simp) hes).elim⟩
  obtain ⟨hs, hcur, hsent, hset, hcall⟩ := hstep
  refine ⟨?_, fun pre J U post hq => ?_, fun hmax => ?_, hcur ▸ h.cursor, ?_,
    fun pre J U o' s post heq => ?_⟩
  · rw [sent_append, settings_append, hsent, hset, List.append_nil, List.append_nil, h.sent, hpost]
  · obtain ⟨a', b, hlog, ha⟩ := h.waits (.patch I T :: pre) J U post (by rw [hQ, show Q = _ from hq]; rfl)
    refine ⟨a', b ++ es, by rw [hlog]; simp, ?_⟩
    rw [ha, settings_append log, hset, List.append_nil]
    rfl
  · show postponed Q = []
    rw [← hpost]
    exact h.early (hcur ▸ hmax)
  · rw [settings_append, hset, List.append_nil]
    exact h.settings.trans hs
  · refine past_append h.past (fun pre' K V o'' s' post' hes => ?_) heq
    obtain ⟨rfl, rfl, rfl, rfl⟩ := hcall pre' K V o'' s' post' hes
    obtain ⟨a', b, hlog, ha⟩ := h.waits [] K V Q hQ
    rw [List.append_nil]
    have ha' : E9Patch.sent a' = E9Patch.settings log := by rw [ha]; exact List.append_nil _
    exact ⟨a', b, hlog, ha', by rw [ha']; exact h.settings.1⟩

theorem Action.inStep (hi : Invariant B) (h : InStep B₀ log B) (ha : Action NoPatchWaits B es B') :
    InStep B₀ (log ++ es) B' := by
  cases ha with
  | instruction address length offset ha =>
      obtain ⟨-, hB'⟩ := instruction_claims ha
      exact h.silent (by rw [hB']) (by rw [hB']) (by rw [hB']; exact ⟨rfl, rfl, rfl⟩)
  | reserve absolute address bytes length ha =>
      have hB' := (parseReserve_only hi.wellFormed.allocates ha).2
      exact h.silent (by rw [hB']) (by rw [hB']) (by rw [hB']; exact ⟨rfl, rfl, rfl⟩)
  | trampoline name template ha =>
      have hB' := parseTrampoline_only ha
      exact h.silent (by rw [hB']) (by rw [hB']) (by rw [hB']; exact ⟨rfl, rfl, rfl⟩)
  | accept I T metadata hI hp ha =>
      obtain ⟨-, hQ, hB'⟩ := enqueue_restates (by exact ⟨rfl, rfl, rfl, rfl, rfl⟩) ha
      exact h.accept hQ (by rw [hB']) (by rw [hB']; exact ⟨rfl, rfl, rfl⟩)
  | options options analysis hc hG => exact h.options hc hG
  | postpone options analysis hc => exact h.postpone hc
  | entrySet =>
      obtain ⟨Es, hEs⟩ := buildEntrySet_frame B
      exact h.silent (by rw [hEs]) (by rw [hEs]) (by rw [hEs]; exact ⟨rfl, rfl, rfl⟩)
  | cursor cursor hc => exact h.silent rfl (Int.le_of_lt hc) ⟨rfl, rfl, rfl⟩
  | @leave C log' entry Q hQ ha =>
      cases entry with
      | options options analysis =>
          cases ha
          exact h.leave_options hQ
      | patch I T => exact h.leave_patch hi hQ ha

theorem Actions.inStep {log' : List Event} (hi : Invariant B) (h : InStep B₀ log B)
    (ha : Actions NoPatchWaits B log' B') : InStep B₀ (log ++ log') B' := by
  induction ha with
  | refl =>
      rw [List.append_nil]
      exact h
  | tail hr hs ih =>
      rw [← List.append_assoc]
      exact hs.inStep ((hr.runs hi).invariant hi) ih

theorem Fresh.inStep (h : Fresh B) : InStep B [] B := by
  refine ⟨by rw [h.Q]; rfl, fun pre I T post hq => ?_, fun _ => by rw [h.Q]; rfl, h.cursor.le,
    ⟨rfl, rfl, rfl⟩, fun pre I T o s post heq => ?_⟩
  · rw [h.Q] at hq
    cases pre <;> cases hq
  · cases pre <;> cases heq

end

theorem runsUnder_of_inTime {file : File} {mode : Mode} {options : Options} {analysis : Option (Nat → Bool)}
    {B₀ B : Binary} {ms : List Message} {log : List Event} (h₀ : parseBinary file mode options analysis = .ok B₀)
    (hG : InTime NoPatchWaits B₀ ms) (h : emitLog B₀ ms = .ok (B, log)) {pre post : List Event} {I : Nat}
    {T : Template} {o : Options} {s : Bool} (hcall : log = pre ++ .patched I T o s :: post) :
    RunsUnder B₀ pre I T o := by
  have hstep := (emitLog_actions hG h).inStep (parseBinary_invariant h₀) (parseBinary_fresh h₀).inStep
  rw [List.nil_append] at hstep
  exact hstep.past pre I T o s post hcall

/-- **Options apply to later messages.** If no patch waits whenever an options message is handled at once,
every call of `patch` in an accepted stream runs under the options of exactly the options messages that
were sent before its patch message. -/
theorem options_in_force {file : File} {mode : Mode} {options : Options} {analysis : Option (Nat → Bool)}
    {B₀ B : Binary} {ms : List Message} {log : List Event} (h₀ : parseBinary file mode options analysis = .ok B₀)
    (hG : InTime NoPatchWaits B₀ ms) (h : emitLog B₀ ms = .ok (B, log)) {pre post : List Event} {I : Nat}
    {T : Template} {o : Options} {s : Bool} (hcall : log = pre ++ .patched I T o s :: post) :
    RunsUnder B₀ pre I T o := runsUnder_of_inTime h₀ hG h hcall

/-! ### Streaming -/

/-- Batch mode is off, and no entry of the queue turns it on. -/
def Streaming (B : Binary) : Prop :=
  B.options.option_batch = false ∧ ∀ o ∈ postponed B.Q, o.1.option_batch = false

/-- No options message of the stream turns batch mode on. -/
def KeepsStreaming (ms : List Message) : Prop :=
  ∀ argv, Message.options argv ∈ ms → ∀ o ∈ argv, o.1.option_batch = false

theorem applyOptions_batch (B : Binary) (options : Options) (analysis : Option (Nat → Bool)) :
    (applyOptions B options analysis).options.option_batch = options.option_batch := by
  unfold applyOptions targetAnalysis
  simp only
  split <;> split <;> first | rfl | (split <;> rfl)

section
variable {G : Binary → Prop} {B B' : Binary} {log es : List Event}

theorem Action.cursor_le (hi : Invariant B) (h : Action G B es B') : B'.cursor ≤ B.cursor := by
  cases h with
  | instruction address length offset h =>
      rw [(instruction_claims h).2]
  | reserve absolute address bytes length h =>
      rw [(parseReserve_only hi.wellFormed.allocates h).2]
  | trampoline name template h => rw [parseTrampoline_only h]
  | accept I T metadata hI hp h =>
      obtain ⟨-, -, hB'⟩ := enqueue_restates (by exact ⟨rfl, rfl, rfl, rfl, rfl⟩) h
      rw [hB']
  | options options analysis hc hG => rw [(applyOptions_same B options analysis).eq]
  | postpone options analysis hc => exact Int.le_refl _
  | entrySet =>
      obtain ⟨Es, hEs⟩ := buildEntrySet_frame B
      rw [hEs]
  | cursor cursor hc => exact Int.le_of_lt hc
  | @leave C log' entry Q hQ h =>
      show C.cursor ≤ B.cursor
      cases entry with
      | options options analysis =>
          cases h
          rw [(applyOptions_same B options analysis).eq]
      | patch I T =>
          rcases flushEntryLog_patch h with ⟨-, D, t, hD, hpatch, -⟩ | ⟨-, rfl, -⟩
          · have hI : I < B.count := hi.queue I T (by rw [hQ]; simp)
            obtain ⟨hs, hB', -⟩ := unqueue_restates hD
            have hwD := ((Step.dequeue I hI hD).ok hi.wellFormed).wellFormed
            rw [(patch_rest hwD (by rwa [hs.count]) hpatch).2, hB']
          · exact Int.le_refl _

theorem Actions.cursor_le (hi : Invariant B) (h : Actions G B log B') : B'.cursor ≤ B.cursor := by
  induction h with
  | refl => exact Int.le_refl _
  | tail h ha ih => exact (ha.cursor_le ((h.runs hi).invariant hi)).trans ih

theorem Streaming.same (h : Streaming B) (ho : B'.options = B.options) (hQ : postponed B'.Q = postponed B.Q) :
    Streaming B' := by
  rw [Streaming, ho, hQ]
  exact h

theorem Action.streaming (hi : Invariant B) (h : Streaming B) (ha : Action G B es B')
    (hes : ∀ o ∈ sent es, o.1.option_batch = false) : Streaming B' := by
  cases ha with
  | instruction address length offset ha =>
      rw [(instruction_claims ha).2]
      exact h
  | reserve absolute address bytes length ha =>
      rw [(parseReserve_only hi.wellFormed.allocates ha).2]
      exact h
  | trampoline name template ha =>
      rw [parseTrampoline_only ha]
      exact h
  | accept I T metadata hI hp ha =>
      obtain ⟨-, hQ, hB'⟩ := enqueue_restates (by exact ⟨rfl, rfl, rfl, rfl, rfl⟩) ha
      refine h.same (by rw [hB']) ?_
      rw [hQ, postponed_append]
      exact List.append_nil _
  | options options analysis hc hG =>
      refine ⟨?_, ?_⟩
      · rw [applyOptions_batch]
        exact hes (options, analysis) (by simp [sent, Event.message])
      · rw [(applyOptions_same B options analysis).eq]
        exact h.2
  | postpone options analysis hc =>
      refine ⟨h.1, fun o ho => ?_⟩
      rcases List.mem_append.mp ((postponed_append B.Q [.options options analysis]) ▸ ho) with ho | ho
      · exact h.2 o ho
      · exact hes o ho
  | entrySet =>
      obtain ⟨Es, hEs⟩ := buildEntrySet_frame B
      rw [hEs]
      exact h
  | cursor cursor hc => exact h
  | @leave C log' entry Q hQ ha =>
      have hrest : ∀ o ∈ postponed Q, o.1.option_batch = false := fun o ho => by
        refine h.2 o ?_
        rw [hQ]
        exact (List.sublist_cons_self entry Q).filterMap _ |>.subset ho
      refine ⟨?_, hrest⟩
      show C.options.option_batch = false
      cases entry with
      | options options analysis =>
          cases ha
          rw [applyOptions_batch]
          exact h.2 (options, analysis) (by rw [hQ]; simp [postponed, PatchEntry.argv])
      | patch I T =>
          rcases flushEntryLog_patch ha with ⟨-, D, t, hD, hpatch, -⟩ | ⟨-, rfl, -⟩
          · have hI : I < B.count := hi.queue I T (by rw [hQ]; simp)
            obtain ⟨hs, hB', -⟩ := unqueue_restates hD
            have hwD := ((Step.dequeue I hI hD).ok hi.wellFormed).wellFormed
            rw [(patch_rest hwD (by rwa [hs.count]) hpatch).1.1, hB']
            exact h.1
          · exact h.1

theorem Actions.streaming (hi : Invariant B) (h : Streaming B) (ha : Actions G B log B')
    (hlog : ∀ o ∈ sent log, o.1.option_batch = false) : Streaming B' := by
  induction ha with
  | refl => exact h
  | tail hr hs ih =>
      rw [sent_append] at hlog
      exact hs.streaming ((hr.runs hi).invariant hi) (ih fun o ho => hlog o (List.mem_append_left _ ho))
        fun o ho => hlog o (List.mem_append_right _ ho)

end

/-- While nothing was flushed, no patch waits. -/
def FlushedFirst (B : Binary) : Prop := B.cursor ≤ INTPTR_MAX ∧ (B.cursor = INTPTR_MAX → NoPatchWaits B)

section
variable {B : Binary}

/-- A patch message that is not batched moves the cursor. -/
theorem parsePatchLog_cursor {trampoline : List Template} {offset : List Int} {metadata : List (List MetaEntry)}
    {r : Binary × List Event} (hi : Invariant B) (hs : Streaming B)
    (h : parsePatchLog B trampoline offset metadata = .ok r) : r.1.cursor < B.cursor := by
  obtain ⟨I, T, C, haccept, hcases⟩ := parsePatchLog_cases (G := fun _ => True) h
  have hbatch := (haccept.streaming hi hs fun o ho => by cases ho).1
  rcases hcases with ⟨hon, -⟩ | ⟨-, u, hu, rfl⟩
  · rw [hbatch] at hon
    cases hon
  · obtain ⟨_, hc, hu⟩ := bind_ok.mp hu
    rw [failIf_ok] at hc
    have hiC := (haccept.runs hi).invariant hi
    have hflush : Actions (fun _ => True) { C with cursor := (C.Is I).addr } u.2 u.1 :=
      flushLoopLog_actions rfl hu
    have hcursor : Action (fun _ => True) C [] { C with cursor := (C.Is I).addr } := .cursor _ (by omega)
    calc u.1.cursor ≤ (C.Is I).addr := hflush.cursor_le ((hcursor.runs hiC).invariant hiC)
      _ < C.cursor := by omega
      _ ≤ B.cursor := haccept.cursor_le hi

theorem parseMessageLog_flushedFirst {m : Message} {r : Binary × List Event} (hi : Invariant B)
    (hs : Streaming B) (hf : FlushedFirst B) (h : parseMessageLog B m = .ok r) : FlushedFirst r.1 := by
  have hle : r.1.cursor ≤ B.cursor := (parseMessageLog_actions (inTime_true B [m]).1 h).cursor_le hi
  refine ⟨hle.trans hf.1, fun hmax => ?_⟩
  have hwait : NoPatchWaits B := hf.2 (Int.le_antisymm hf.1 (hmax ▸ hle))
  cases m with
  | instruction address length offset =>
      obtain ⟨C, hC, rfl⟩ := map_ok.mp h
      have hC' : parseInstruction B address length offset = .ok C := hC
      rw [NoPatchWaits, (instruction_claims hC').2]
      exact hwait
  | patch trampoline offset metadata =>
      have := parsePatchLog_cursor hi hs h
      have := hf.1
      omega
  | options argv =>
      obtain ⟨o, -, h⟩ := bind_ok.mp h
      obtain ⟨_, -, h⟩ := bind_ok.mp h
      cases h
      split
      · rw [NoPatchWaits, (applyOptions_same B o.1 o.2).eq]
        exact hwait
      · rw [NoPatchWaits, waiting, List.filterMap_append]
        exact (List.append_nil _).trans hwait
  | reserve absolute address bytes length =>
      obtain ⟨C, hC, rfl⟩ := map_ok.mp h
      have hC' : parseReserve B absolute address bytes length = .ok C := hC
      rw [NoPatchWaits, (parseReserve_only hi.wellFormed.allocates hC').2]
      exact hwait
  | trampoline name template =>
      obtain ⟨C, hC, rfl⟩ := map_ok.mp h
      have hC' : parseTrampoline B name template = .ok C := hC
      rw [NoPatchWaits, parseTrampoline_only hC']
      exact hwait

theorem parseMessageLog_sent {m : Message} {r : Binary × List Event} (hms : KeepsStreaming [m])
    (h : parseMessageLog B m = .ok r) : ∀ o ∈ sent r.2, o.1.option_batch = false := by
  cases m with
  | patch trampoline offset metadata =>
      obtain ⟨I, T, C, -, ⟨-, rfl⟩ | ⟨-, s, hs, rfl⟩⟩ := parsePatchLog_cases (G := fun _ => True) h
      · exact fun o ho => by cases ho
      · intro o ho
        have hmem : o ∈ sent ([Event.accepted I T] ++ s.2) := ho
        rw [sent_append, (queueFlushLog_leaves hs).2] at hmem
        cases hmem
  | options argv =>
      obtain ⟨o, ho, h⟩ := bind_ok.mp h
      obtain ⟨_, -, h⟩ := bind_ok.mp h
      cases h
      have hbatch := hms argv (List.mem_singleton_self _) o (List.mem_of_getLast? (param_ok.mp ho))
      intro o' ho'
      split at ho' <;>
        · obtain rfl : o' = o := List.mem_singleton.mp ho'
          exact hbatch
  | instruction address length offset =>
      obtain ⟨C, -, rfl⟩ := map_ok.mp h
      exact fun o ho => by cases ho
  | reserve absolute address bytes length =>
      obtain ⟨C, -, rfl⟩ := map_ok.mp h
      exact fun o ho => by cases ho
  | trampoline name template =>
      obtain ⟨C, -, rfl⟩ := map_ok.mp h
      exact fun o ho => by cases ho

/-- In streaming mode, no patch waits when options are applied at once. -/
theorem streaming_inTime {ms : List Message} (hi : Invariant B) (hs : Streaming B) (hf : FlushedFirst B)
    (hms : KeepsStreaming ms) : InTime NoPatchWaits B ms := by
  induction ms generalizing B with
  | nil => trivial
  | cons m ms ih =>
      have hhead : KeepsStreaming [m] := fun argv hm => hms argv (List.mem_cons.mpr (Or.inl (List.mem_singleton.mp hm)))
      refine ⟨?_, fun r hr => ?_⟩
      · cases m with
        | options argv => exact hf.2
        | _ => trivial
      · have hactions := parseMessageLog_actions (inTime_true B [m]).1 hr
        exact ih ((hactions.runs hi).invariant hi) (hactions.streaming hi hs (parseMessageLog_sent hhead hr))
          (parseMessageLog_flushedFirst hi hs hf hr) fun argv hm => hms argv (List.mem_cons_of_mem _ hm)

end

/-- Streams that never turn batch mode on need no condition. -/
theorem streaming_options {file : File} {mode : Mode} {options : Options} {analysis : Option (Nat → Bool)}
    {B₀ B : Binary} {ms : List Message} {log : List Event} (h₀ : parseBinary file mode options analysis = .ok B₀)
    (hbatch : B₀.options.option_batch = false) (hms : KeepsStreaming ms) (h : emitLog B₀ ms = .ok (B, log))
    {pre post : List Event} {I : Nat} {T : Template} {o : Options} {s : Bool}
    (hcall : log = pre ++ .patched I T o s :: post) : RunsUnder B₀ pre I T o := by
  have hfresh := parseBinary_fresh h₀
  have hQ : B₀.Q = [] := hfresh.Q
  have hG : InTime NoPatchWaits B₀ ms := by
    refine streaming_inTime (parseBinary_invariant h₀) ⟨hbatch, ?_⟩ ⟨hfresh.cursor.le, fun _ => ?_⟩ hms
    · rw [hQ]
      exact fun o ho => by cases ho
    · rw [NoPatchWaits, hQ]
      rfl
  exact runsUnder_of_inTime h₀ hG h hcall

/-! ### Sample streams -/

def batchOptions : Options := { defaultOptions with option_batch := true }

/-- The options come first. -/
def earlyStream : List Message := .options [({ defaultOptions with option_tactic_B1 := false }, none)] :: sampleStream

/-- In batch mode, options come behind a patch message. -/
def lateStream : List Message :=
  [.instruction [0x400004] [2] [4], .patch [sampleTemplate] [4] [],
    .options [({ batchOptions with option_tactic_B1 := false }, none)]]

def Message.isOptions : Message → Bool
  | .options _ => true
  | _ => false

theorem inTime_of_none {G : Binary → Prop} {B : Binary} {ms : List Message}
    (h : ∀ m ∈ ms, m.isOptions = false) : InTime G B ms := by
  induction ms generalizing B with
  | nil => trivial
  | cons m ms ih =>
      refine ⟨?_, fun r _ => ih fun m' hm' => h m' (List.mem_cons_of_mem _ hm')⟩
      cases m with
      | options argv => exact Bool.noConfusion (h (.options argv) (by simp))
      | _ => trivial

/-- The options in force in the first call of `patch`, with what is before it in the record. -/
def firstCall : List Event → List Event → Option (List Event × Nat × Template × Options × Bool × List Event)
  | _, [] => none
  | pre, .patched I T o s :: post => some (pre, I, T, o, s, post)
  | pre, e :: post => firstCall (pre ++ [e]) post

theorem firstCall_spec {pre log : List Event} {r : List Event × Nat × Template × Options × Bool × List Event}
    (h : firstCall pre log = some r) :
    pre ++ log = r.1 ++ .patched r.2.1 r.2.2.1 r.2.2.2.1 r.2.2.2.2.1 :: r.2.2.2.2.2 := by
  induction log generalizing pre with
  | nil => cases h
  | cons e log ih =>
      cases e with
      | patched I T o s =>
          cases h
          rfl
      | _ =>
          have := ih h
          rwa [List.append_assoc] at this

/-- The sample is patched under the options that were sent first. -/
theorem early_in_force : ∃ B₀ B log pre post I T o s,
    parseBinary sampleFile .ELF_EXE defaultOptions none = .ok B₀ ∧ emitLog B₀ earlyStream = .ok (B, log) ∧
    log = pre ++ .patched I T o s :: post ∧ RunsUnder B₀ pre I T o := by
  obtain ⟨B₀, B, log, h₀, h, hr⟩ := streamResult_ok sampleFile defaultOptions earlyStream
    (by decide +kernel)
  have hcall : (streamResult sampleFile defaultOptions earlyStream).toOption.map (fun r => (firstCall [] r.2).isSome) =
      some true := by decide +kernel
  rw [hr] at hcall
  obtain ⟨r, hfirst⟩ := Option.isSome_iff_exists.mp (Option.some.inj hcall)
  have hG : InTime NoPatchWaits B₀ earlyStream := by
    refine ⟨fun _ => ?_, fun r _ => inTime_of_none (by decide)⟩
    rw [NoPatchWaits, (parseBinary_fresh h₀).Q]
    rfl
  have hlog := firstCall_spec hfirst
  exact ⟨B₀, B, log, r.1, r.2.2.2.2.2, r.2.1, r.2.2.1, r.2.2.2.1, r.2.2.2.2.1, h₀, h, hlog,
    options_in_force h₀ hG h hlog⟩

/-- The record of the late stream, up to the call of `patch` without B1. -/
def isLate : List Event → Bool
  | [.accepted _ _, .sent _ _, .applied _ _, .patched _ _ o _] => !o.option_tactic_B1
  | _ => false

/-- The options were sent behind the patch message, and are in force for it. -/
theorem late_in_force : ∃ B₀ B log pre I T o s,
    parseBinary sampleFile .ELF_EXE batchOptions none = .ok B₀ ∧ emitLog B₀ lateStream = .ok (B, log) ∧
    log = pre ++ [.patched I T o s] ∧ B₀.options.option_tactic_B1 = true ∧ o.option_tactic_B1 = false ∧
    ¬RunsUnder B₀ pre I T o := by
  obtain ⟨B₀, B, log, h₀, h, hr⟩ := streamResult_ok sampleFile batchOptions lateStream
    (by decide +kernel)
  have hlate : (streamResult sampleFile batchOptions lateStream).toOption.map (fun r => isLate r.2) = some true := by
    decide +kernel
  rw [hr] at hlate
  have hshape : isLate log = true := Option.some.inj hlate
  have hB₁ : (parseBinary sampleFile .ELF_EXE batchOptions none).toOption.map (·.options.option_tactic_B1) =
      some true := by decide +kernel
  rw [h₀] at hB₁
  unfold isLate at hshape
  split at hshape
  · rename_i I T o₁ a₁ o₂ a₂ J U o s
    refine ⟨B₀, B, _, [.accepted I T, .sent o₁ a₁, .applied o₂ a₂], J, U, o, s, h₀, h, rfl,
      Option.some.inj hB₁, by simpa using hshape, ?_⟩
    rintro ⟨a, b, hpre, hsent, -⟩
    cases a with
    | nil => cases hsent
    | cons e a =>
        -- there is no other acceptance behind the first
        cases a with
        | nil => cases hpre
        | cons e' a =>
            cases a with
            | nil => cases hpre
            | cons e'' a => cases a <;> cases hpre
  · cases hshape

end E9Patch
