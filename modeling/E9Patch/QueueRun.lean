import E9Patch.QueueModel
import E9Patch.ReserveTheorems

/-!
What a message does, as a run of actions with their events. An action is quiet if it leaves all bytes and
the flags of patched instructions alone: all of them are, but for the call of `patch`.
-/

namespace E9Patch
open Bytes Binary Fallible

/-- What the program does at once, with its events. Options are applied by their message in the states of
`G` only. -/
inductive Action (G : Binary → Prop) (B : Binary) : List Event → Binary → Prop where
  | instruction {B' : Binary} (address length offset : List Int) :
      parseInstruction B address length offset = .ok B' → Action G B [] B'
  | reserve {B' : Binary} (absolute : List Bool) (address : List Int) (bytes : List Template)
      (length : List Int) : parseReserve B absolute address bytes length = .ok B' → Action G B [] B'
  | trampoline {B' : Binary} (name : List String) (template : List Template) :
      parseTrampoline B name template = .ok B' → Action G B [] B'
  | accept {B' : Binary} (I : Nat) (T : Template) (metadata : List MetaEntry) : I < B.count →
      (B.Is I).patch = false →
      enqueue (B.setInstr I { B.Is I with patch := true, metadata := metadata, T := some (.user T) }) I T =
        .ok B' → Action G B [.accepted I T] B'
  | options (options : Options) (analysis : Option (Nat → Bool)) : B.cursor = INTPTR_MAX → G B →
      Action G B [.sent options analysis, .applied options analysis] (applyOptions B options analysis)
  | postpone (options : Options) (analysis : Option (Nat → Bool)) : B.cursor ≠ INTPTR_MAX →
      Action G B [.sent options analysis] { B with Q := B.Q ++ [.options options analysis] }
  | entrySet : Action G B [] (buildEntrySet B)
  | cursor (cursor : Int) : cursor < B.cursor → Action G B [] { B with cursor := cursor }
  | leave {B' : Binary} {log : List Event} (entry : PatchEntry) (Q : List PatchEntry) : B.Q = entry :: Q →
      flushEntryLog B entry = .ok (B', log) → Action G B log { B' with Q := Q }

/-- A run of actions. -/
inductive Actions (G : Binary → Prop) (B : Binary) : List Event → Binary → Prop where
  | refl : Actions G B [] B
  | tail {log es : List Event} {C D : Binary} : Actions G B log C → Action G C es D →
      Actions G B (log ++ es) D

/-- If it is an options message that is handled at once, it comes in a state of `G`. -/
def Message.InTime (G : Binary → Prop) (B : Binary) : Message → Prop
  | .options _ => B.cursor = INTPTR_MAX → G B
  | _ => True

/-- All messages of the stream are in time. -/
def InTime (G : Binary → Prop) : Binary → List Message → Prop
  | _, [] => True
  | B, m :: ms => m.InTime G B ∧ ∀ r, parseMessageLog B m = .ok r → InTime G r.1 ms

section
variable {G : Binary → Prop} {B B' B'' : Binary}

theorem Actions.trans {log log' : List Event} (h : Actions G B log B') (h' : Actions G B' log' B'') :
    Actions G B (log ++ log') B'' := by
  induction h' with
  | refl =>
      rw [List.append_nil]
      exact h
  | tail _ ha ih =>
      rw [← List.append_assoc]
      exact ih.tail ha

theorem Actions.single {es : List Event} (h : Action G B es B') : Actions G B es B' := Actions.refl.tail h

theorem Actions.one {es log : List Event} (h : Action G B es B') (h' : Actions G B' log B'') :
    Actions G B (es ++ log) B'' := (Actions.single h).trans h'

/-! ### Messages are made of actions -/

theorem flushLoopLog_actions {cursor : Int} {Q : List PatchEntry} {r : Binary × List Event} (hQ : B.Q = Q)
    (h : flushLoopLog cursor Q B = .ok r) : Actions G B r.2 r.1 := by
  induction Q generalizing B r with
  | nil =>
      cases h
      rw [← hQ]
      exact .refl
  | cons entry Q ih =>
      unfold flushLoopLog at h
      rw [← hQ] at h
      split at h
      · obtain ⟨s, hs, h⟩ := bind_ok.mp h
        obtain ⟨u, hu, h⟩ := bind_ok.mp h
        cases h
        exact Actions.one (.leave entry Q hQ hs) (ih rfl hu)
      · cases h
        exact .refl

theorem queueFlushLog_actions {cursor : Int} {r : Binary × List Event}
    (h : queueFlushLog B cursor = .ok r) : Actions G B r.2 r.1 := by
  obtain ⟨_, hc, h⟩ := bind_ok.mp h
  rw [failIf_ok] at hc
  have h' : Actions G { B with cursor := cursor } r.2 r.1 := flushLoopLog_actions rfl h
  exact Actions.one (.cursor cursor (by omega)) h'

/-- What a patch message does: its entry is accepted, and without batch mode the queue is flushed. -/
theorem parsePatchLog_cases {trampoline : List Template} {offset : List Int}
    {metadata : List (List MetaEntry)} {r : Binary × List Event}
    (h : parsePatchLog B trampoline offset metadata = .ok r) :
    ∃ I T C, Action G B [.accepted I T] C ∧
      ((C.options.option_batch = true ∧ r = (C, [.accepted I T])) ∨
        C.options.option_batch = false ∧ ∃ s, queueFlushLog C (C.Is I).addr = .ok s ∧
          r = (s.1, .accepted I T :: s.2)) := by
  unfold parsePatchLog at h
  obtain ⟨T, -, h⟩ := bind_ok.mp h
  obtain ⟨off, -, h⟩ := bind_ok.mp h
  obtain ⟨_, -, h⟩ := bind_ok.mp h
  split at h
  · cases h
  · rename_i I hI
    obtain ⟨_, hpatch, h⟩ := bind_ok.mp h
    rw [failIf_ok, Bool.not_eq_true] at hpatch
    have hIc : I < B.count := findLoop_lt (by omega) (by omega) hI
    obtain ⟨C, hC, h⟩ := bind_ok.mp h
    refine ⟨I, T, C, .accept I T _ hIc hpatch hC, ?_⟩
    cases hbatch : C.options.option_batch with
    | false =>
        simp only [hbatch, Bool.not_false, if_true] at h
        obtain ⟨s, hs, h⟩ := bind_ok.mp h
        cases h
        exact Or.inr ⟨rfl, s, hs, rfl⟩
    | true =>
        simp only [hbatch, Bool.not_true] at h
        cases h
        exact Or.inl ⟨rfl, rfl⟩

theorem parsePatchLog_actions {trampoline : List Template} {offset : List Int}
    {metadata : List (List MetaEntry)} {r : Binary × List Event}
    (h : parsePatchLog B trampoline offset metadata = .ok r) : Actions G B r.2 r.1 := by
  obtain ⟨I, T, C, haccept, ⟨-, rfl⟩ | ⟨-, s, hs, rfl⟩⟩ := parsePatchLog_cases (G := G) h
  · exact .single haccept
  · exact Actions.one haccept (queueFlushLog_actions hs)

theorem parseMessageLog_actions {m : Message} {r : Binary × List Event} (hG : m.InTime G B)
    (h : parseMessageLog B m = .ok r) : Actions G B r.2 r.1 := by
  cases m with
  | instruction address length offset =>
      obtain ⟨C, hC, rfl⟩ := map_ok.mp h
      exact .single (.instruction address length offset hC)
  | patch trampoline offset metadata => exact parsePatchLog_actions h
  | options argv =>
      obtain ⟨o, -, h⟩ := bind_ok.mp h
      obtain ⟨_, -, h⟩ := bind_ok.mp h
      cases h
      by_cases hc : B.cursor = INTPTR_MAX
      · rw [if_pos hc]
        exact .single (.options o.1 o.2 hc (hG hc))
      · rw [if_neg hc]
        exact .single (.postpone o.1 o.2 hc)
  | reserve absolute address bytes length =>
      obtain ⟨C, hC, rfl⟩ := map_ok.mp h
      exact .single (.reserve absolute address bytes length hC)
  | trampoline name template =>
      obtain ⟨C, hC, rfl⟩ := map_ok.mp h
      exact .single (.trampoline name template hC)

theorem serveLog_actions {ms : List Message} {r : Binary × List Event} (hG : InTime G B ms)
    (h : serveLog B ms = .ok r) : Actions G B r.2 r.1 := by
  induction ms generalizing B r with
  | nil =>
      cases h
      exact .refl
  | cons m ms ih =>
      obtain ⟨s, hs, h⟩ := bind_ok.mp h
      obtain ⟨u, hu, h⟩ := bind_ok.mp h
      cases h
      exact (parseMessageLog_actions hG.1 hs).trans (ih (hG.2 s hs) hu)

/-- A whole stream is a run of actions. -/
theorem emitLog_actions {ms : List Message} {r : Binary × List Event} (hG : InTime G B ms)
    (h : emitLog B ms = .ok r) : Actions G B r.2 r.1 := by
  obtain ⟨s, hs, h⟩ := bind_ok.mp h
  obtain ⟨u, hu, h⟩ := bind_ok.mp h
  cases h
  exact (serveLog_actions hG hs).trans (Actions.one .entrySet (queueFlushLog_actions hu))

theorem inTime_true (B : Binary) (ms : List Message) : InTime (fun _ => True) B ms := by
  induction ms generalizing B with
  | nil => trivial
  | cons m ms ih =>
      refine ⟨?_, fun r _ => ih r.1⟩
      cases m with
      | options argv => exact fun _ => trivial
      | _ => trivial

/-! ### Actions are runs of steps -/

theorem Action.runs {es : List Event} (hi : Invariant B) (h : Action G B es B') : Runs B B' := by
  cases h with
  | instruction address length offset h => exact .single (.instruction address length offset h)
  | reserve absolute address bytes length h => exact .single (.reserve absolute address bytes length h)
  | trampoline name template h => exact .single (.trampoline name template h)
  | accept I T metadata hI hp h => exact (Runs.single (.mark I metadata (some (.user T)))).tail (.queue I T hI h)
  | options options analysis hc hG => exact .single (.options options analysis)
  | postpone options analysis hc => exact .single (.postpone options analysis)
  | entrySet => exact .single .entrySet
  | cursor cursor hc => exact .single (.cursor cursor)
  | leave entry Q hQ h =>
      have hfst := flushEntryLog_fst B entry
      rw [h] at hfst
      obtain ⟨hr, hQ'⟩ := flushEntry_runs hi (by rw [hQ]; simp) hfst.symm
      exact hr.tail (.pop Q (by rw [hQ', hQ]; exact List.subset_cons_self _ _))

theorem Actions.runs {log : List Event} (hi : Invariant B) (h : Actions G B log B') : Runs B B' := by
  induction h with
  | refl => exact .refl
  | tail _ ha ih => exact ih.trans (ha.runs (ih.invariant hi))

end

/-! ### What actions do to instructions -/

/-- Bytes, states and instructions are left alone. -/
structure Plain (B B' : Binary) : Prop where
  bytes : B'.bytes = B.bytes
  state : B'.state = B.state
  Is : B'.Is = B.Is
  count : B'.count = B.count
  original : B'.original = B.original

/-- Of an instruction, what queueing it leaves alone. -/
structure SameMarks (I I' : Instr) : Prop where
  offset : I'.offset = I.offset
  size : I'.size = I.size
  addr : I'.addr = I.addr
  is_patched : I'.is_patched = I.is_patched
  is_evicted : I'.is_evicted = I.is_evicted

/-- All bytes of `I` go from the state `s` to `s'`. -/
structure Restated (I : Nat) (s s' : ByteState) (B B' : Binary) : Prop where
  before : ∀ i < (B.Is I).size, B.STATE I i = s
  inside : ∀ q, B.Inside I q → B'.state q = s'
  outside : ∀ q, ¬B.Inside I q → B'.state q = B.state q
  bytes : B'.bytes = B.bytes
  Is : ∀ k, SameMarks (B.Is k) (B'.Is k)
  count : B'.count = B.count
  original : B'.original = B.original

/-- A new instruction has claimed its bytes. -/
structure Claimed (B B' : Binary) : Prop where
  count : B'.count = B.count + 1
  Is : ∀ k, k ≠ B.count → B'.Is k = B.Is k
  new : (B'.Is B.count).is_patched = false ∧ (B'.Is B.count).is_evicted = false
  inside : ∀ q, B'.Inside B.count q → B.state q = STATE_UNKNOWN ∧ B'.state q = STATE_INSTRUCTION
  outside : ∀ q, ¬B'.Inside B.count q → B'.state q = B.state q
  bytes : B'.bytes = B.bytes
  original : B'.original = B.original

theorem SameMarks.refl (I : Instr) : SameMarks I I := ⟨rfl, rfl, rfl, rfl, rfl⟩

theorem SameMarks.trans {I I' I'' : Instr} (h : SameMarks I I') (h' : SameMarks I' I'') : SameMarks I I'' :=
  ⟨h'.offset.trans h.offset, h'.size.trans h.size, h'.addr.trans h.addr, h'.is_patched.trans h.is_patched,
    h'.is_evicted.trans h.is_evicted⟩

theorem sameMarks_setInstr {B : Binary} {I : Nat} {J : Instr} (h : SameMarks (B.Is I) J) (k : Nat) :
    SameMarks (B.Is k) ((B.setInstr I J).Is k) := by
  by_cases hk : k = I
  · subst hk
    simpa [setInstr] using h
  · simpa [setInstr, hk] using SameMarks.refl (B.Is k)

section
variable {B B' C : Binary} {I : Nat} {s s' : ByteState}

theorem Plain.cell (h : Plain B B') (q : Nat) : B'.cell q = B.cell q := by
  rw [Binary.cell, Binary.cell, h.bytes, h.state]

/-- The loops over the bytes of an instruction that change their state. -/
theorem restated_of_loop {f : Binary → Nat → Except Fault Binary}
    (hf : ∀ {C C' i}, f C i = .ok C' → C.STATE I i = s ∧ C' = C.setState ((C.Is I).offset + i) s')
    (h : (List.range (B.Is I).size).foldlM f B = .ok C) : Restated I s s' B C ∧ Rewrites B C := by
  obtain ⟨hr, hother, hl⟩ := loop_cells I (B.Is I).offset
    (fun _ c d => c.2 = s ∧ d = (c.1, s')) List.nodup_range (fun i _ C C' hI hC => by
      obtain ⟨hs, rfl⟩ := hf hC
      rw [STATE, hI] at hs
      rw [hI]
      exact ⟨rewrites_setState _ _ _, fun q hq => by rw [cell_setState, if_neg hq], hs,
        by rw [cell_setState, if_pos rfl]; rfl⟩) h
  have hcell : ∀ q, C.cell q = if B.Inside I q then (B.bytes q, s') else B.cell q := by
    intro q
    split
    · rename_i hq
      obtain ⟨h1, h2⟩ := hq
      have := (hl (q - (B.Is I).offset) (List.mem_range.mpr (by omega))).2
      rwa [show (B.Is I).offset + (q - (B.Is I).offset) = q from by omega] at this
    · rename_i hq
      refine hother q fun i hi he => hq ?_
      rw [List.mem_range] at hi
      exact ⟨by omega, by omega⟩
  refine ⟨⟨fun i hi => (hl i (List.mem_range.mpr hi)).1, fun q hq => ?_, fun q hq => ?_, funext fun q => ?_,
    fun k => ?_, by rw [hr], by rw [hr]⟩, hr⟩
  · rw [← cell_snd, hcell, if_pos hq]
  · rw [← cell_snd, hcell, if_neg hq]
    rfl
  · rw [← cell_fst, hcell]
    split <;> rfl
  · rw [hr.Is]
    exact .refl _

/-- An instruction is queued by its patch message. -/
theorem enqueue_restates {T : Template} {J : Instr} (hJ : SameMarks (B.Is I) J)
    (h : enqueue (B.setInstr I J) I T = .ok B') :
    Restated I STATE_INSTRUCTION STATE_QUEUED B B' ∧ B'.Q = B.Q ++ [.patch I T] ∧
      B' = { B with state := B'.state, bytes := B'.bytes, Is := (B.setInstr I J).Is, Q := B'.Q } := by
  obtain ⟨C, hC, h⟩ := bind_ok.mp h
  cases h
  obtain ⟨hR, hr⟩ := restated_of_loop queueByte_spec hC
  have hmarks := sameMarks_setInstr hJ
  have hIs : C.Is = (B.setInstr I J).Is := hr.Is
  have hinside : ∀ q, (B.setInstr I J).Inside I q ↔ B.Inside I q := fun q => by
    rw [Inside, Inside, (hmarks I).offset, (hmarks I).size]
  refine ⟨⟨fun i hi => ?_, fun q hq => hR.inside q ((hinside q).mpr hq),
    fun q hq => hR.outside q fun hq' => hq ((hinside q).mp hq'), hR.bytes, fun k => ?_, hR.count, hR.original⟩,
    ?_, ?_⟩
  · have := hR.before i (by rwa [(hmarks I).size])
    rwa [STATE, (hmarks I).offset] at this
  · show SameMarks _ (C.Is k)
    rw [hIs]
    exact hmarks k
  · rw [hr]
    rfl
  · rw [hr]
    rfl

/-- An instruction is taken off the queue again. -/
theorem unqueue_restates (h : unqueue I B = .ok B') :
    Restated I STATE_QUEUED STATE_INSTRUCTION B B' ∧
      B' = { B with state := B'.state, bytes := B'.bytes, Is := B'.Is } ∧
      ∀ k, (B'.Is k).patch = (B.Is k).patch ∧ (B'.Is k).T = (B.Is k).T := by
  obtain ⟨C, hC, h⟩ := bind_ok.mp h
  cases h
  obtain ⟨hR, hr⟩ := restated_of_loop unqueueByte_spec hC
  have hmarks := fun k => sameMarks_setInstr (B := C) (I := I) (k := k)
    (J := { C.Is I with debug := C.options.option_trap_all || (C.Is I).addr ∈ C.options.option_trap })
    ⟨rfl, rfl, rfl, rfl, rfl⟩
  refine ⟨⟨hR.before, hR.inside, hR.outside, hR.bytes, fun k => (hR.Is k).trans (hmarks k), hR.count,
    hR.original⟩, ?_, fun k => ?_⟩
  · rw [hr]
    rfl
  · have hIs := hr.Is
    by_cases hk : k = I
    · subst hk
      simp [setInstr, hIs]
    · simp [setInstr, hk, hIs]

/-- An instruction message claims the bytes of the new instruction. -/
theorem instruction_claims {address length offset : List Int}
    (h : parseInstruction B address length offset = .ok B') :
    Claimed B B' ∧ B' = { B with state := B'.state, bytes := B'.bytes, Is := B'.Is, count := B'.count } := by
  obtain ⟨off, addr, len, -, h⟩ := parseInstruction_ok h
  obtain ⟨hr, hother, hl⟩ := loop_cells B.count off
    (fun _ c d => c.2 = STATE_UNKNOWN ∧ d = (c.1, STATE_INSTRUCTION)) List.nodup_range
    (fun i _ C C' hI hf => by
      obtain ⟨hs, rfl⟩ := claimByte_spec hf
      have hoff : (C.Is B.count).offset = off := by
        rw [hI, (newInstr_Is B off addr len B.count).1, if_pos rfl]
      rw [STATE, hoff] at hs
      rw [hoff]
      exact ⟨rewrites_setState _ _ _, fun q hq => by rw [cell_setState, if_neg hq], hs,
        by rw [cell_setState, if_pos rfl]; rfl⟩) h
  have hnew := newInstr_Is B off addr len B.count
  have hin : ∀ q, B'.Inside B.count q ↔ off ≤ q ∧ q < off + len := fun q => by
    rw [Inside, hr.Is, hnew.1, hnew.2.1, if_pos rfl, if_pos rfl]
  have hcell : ∀ q, B'.Inside B.count q →
      B.state q = STATE_UNKNOWN ∧ B'.cell q = (B.bytes q, STATE_INSTRUCTION) := by
    intro q hq
    obtain ⟨h1, h2⟩ := (hin q).mp hq
    have := hl (q - off) (List.mem_range.mpr (by omega))
    rwa [show off + (q - off) = q from by omega] at this
  have hcell' : ∀ q, ¬B'.Inside B.count q → B'.cell q = B.cell q := fun q hq =>
    hother q fun i hi he => hq ((hin q).mpr (by rw [List.mem_range] at hi; omega))
  refine ⟨⟨by rw [hr]; rfl, fun k hk => ?_, ?_, fun q hq => ?_, fun q hq => ?_, funext fun q => ?_,
    by rw [hr]; rfl⟩, by rw [hr]; rfl⟩
  · rw [hr.Is]
    simp [newInstr, setInstr, hk]
  · rw [hr.Is]
    simp [newInstr, setInstr, Instr.zero]
  · exact ⟨(hcell q hq).1, congrArg Prod.snd (hcell q hq).2⟩
  · exact congrArg Prod.snd (hcell' q hq)
  · by_cases hq : B'.Inside B.count q
    · exact congrArg Prod.fst (hcell q hq).2
    · exact congrArg Prod.fst (hcell' q hq)

/-! ### Instructions stay tracked -/

theorem Plain.tracked (h : Plain B B') (ht : Tracked B) : Tracked B' :=
  (ht.same (S := fun _ => False) (R := fun _ => False) h.count
    (fun k => by rw [h.Is]; exact ⟨rfl, rfl, rfl, rfl⟩) h.cell).tracked

theorem Restated.STATE_eq (h : Restated I s s' B B') (k i : Nat) :
    B'.STATE k i = B'.state ((B.Is k).offset + i) := by rw [STATE, (h.Is k).offset]

/-- The other instructions keep their states. -/
theorem Restated.other (h : Restated I s s' B B') (ht : Tracked B) (hI : I < B.count) {k i : Nat}
    (hk : k < B.count) (hne : k ≠ I) (hi : i < (B.Is k).size) : B'.STATE k i = B.STATE k i := by
  rw [h.STATE_eq, h.outside _ fun hin => hne (ht.at_most_one hI hk hi hin).symm]
  rfl

theorem Restated.own (h : Restated I s s' B B') {i : Nat} (hi : i < (B.Is I).size) :
    B'.STATE I i = s' := by
  rw [h.STATE_eq]
  exact h.inside _ ⟨by omega, by omega⟩

theorem Restated.tracked (h : Restated I s s' B B') (ht : Tracked B) (hI : I < B.count)
    (hs : ¬Dead s) (hs' : s' = STATE_INSTRUCTION ∨ s' = STATE_QUEUED) : Tracked B' := by
  refine ⟨fun j k hjk hk => ?_, fun k hk i hi => ?_, fun k hk hp i hi => ?_, fun k hk hp => ?_,
    fun k hk i hi j hj hq => ?_⟩ <;> rw [h.count] at hk
  · rw [(h.Is k).offset, (h.Is k).size, (h.Is j).offset]
    exact ht.apart j k hjk hk
  · rw [(h.Is k).size] at hi
    by_cases hkI : k = I
    · subst hkI
      rw [h.own hi]
      rcases hs' with rfl | rfl <;> decide
    · rw [h.other ht hI hk hkI hi]
      exact ht.known k hk i hi
  · rw [(h.Is k).size] at hi
    by_cases hkI : k = I
    · subst hkI
      rw [h.own hi]
      rcases hs' with rfl | rfl <;> decide
    · rw [h.other ht hI hk hkI hi]
      exact ht.whole k hk (by rwa [← (h.Is k).is_patched]) i hi
  · rw [(h.Is k).size]
    obtain ⟨i, hi, hd⟩ := ht.patched k hk (by rwa [← (h.Is k).is_patched])
    by_cases hkI : k = I
    · subst hkI
      rw [h.before i hi] at hd
      exact absurd hd hs
    · exact ⟨i, hi, by rwa [h.other ht hI hk hkI hi]⟩
  · rw [(h.Is k).size] at hi hj
    by_cases hkI : k = I
    · subst hkI
      rw [h.own hi] at hq
      rw [h.own hj, hq]
    · rw [h.other ht hI hk hkI hi] at hq
      rw [h.other ht hI hk hkI hj]
      exact ht.uniform k hk i hi j hj hq

/-- The states of older instructions stay. -/
theorem Claimed.older (h : Claimed B B') (ht : Tracked B) {k i : Nat} (hk : k < B.count)
    (hi : i < (B.Is k).size) : B'.STATE k i = B.STATE k i := by
  rw [STATE, STATE, h.Is k (by omega)]
  by_cases hin : B'.Inside B.count ((B.Is k).offset + i)
  · have hkind := ht.known k hk i hi
    rw [STATE, (h.inside _ hin).1] at hkind
    exact absurd rfl hkind
  · exact h.outside _ hin

theorem Claimed.tracked (h : Claimed B B') (ht : Tracked B) (hw : WellFormed B') : Tracked B' := by
  have hnew : ∀ i < (B'.Is B.count).size, B'.STATE B.count i = STATE_INSTRUCTION := fun i hi =>
    (h.inside _ ⟨by omega, by omega⟩).2
  have hcases : ∀ k < B'.count, k = B.count ∨ (k ≠ B.count ∧ k < B.count) := fun k hk => by
    rw [h.count] at hk
    omega
  refine ⟨hw.offsets, fun k hk i hi => ?_, fun k hk hp i hi => ?_, fun k hk hp => ?_,
    fun k hk i hi j hj hq => ?_⟩ <;> rcases hcases k hk with rfl | ⟨hne, hlt⟩
  · rw [hnew i hi]
    decide
  · rw [h.Is k hne] at hi
    rw [h.older ht hlt hi]
    exact ht.known k hlt i hi
  · rw [hnew i hi]
    decide
  · rw [h.Is k hne] at hi hp
    rw [h.older ht hlt hi]
    exact ht.whole k hlt hp i hi
  · rw [h.new.1] at hp
    cases hp
  · rw [h.Is k hne] at hp ⊢
    obtain ⟨i, hi, hd⟩ := ht.patched k hlt hp
    exact ⟨i, hi, by rwa [h.older ht hlt hi]⟩
  · rw [hnew i hi] at hq
    cases hq
  · rw [h.Is k hne] at hi hj
    rw [h.older ht hlt hi] at hq
    rw [h.older ht hlt hj]
    exact ht.uniform k hlt i hi j hj hq

/-- What becomes of an entry for a patch. -/
theorem flushEntryLog_patch {T : Template} {log : List Event}
    (h : flushEntryLog B (.patch I T) = .ok (B', log)) :
    (B.STATE I 0 = STATE_QUEUED ∧ ∃ C o, unqueue I B = .ok C ∧ Binary.patch I (.user T) C = .ok (B', o) ∧
      log = [.patched I T C.options o.isSome]) ∨
    (B.STATE I 0 ≠ STATE_QUEUED ∧ B' = B ∧ log = [.batched I T]) := by
  simp only [flushEntryLog] at h
  split at h
  · rename_i hq
    obtain ⟨C, hC, h⟩ := bind_ok.mp h
    obtain ⟨⟨D, o⟩, hD, h⟩ := bind_ok.mp h
    cases h
    exact Or.inl ⟨hq, C, o, hC, hD, rfl⟩
  · rename_i hq
    cases h
    exact Or.inr ⟨hq, rfl, rfl⟩

theorem applyOptions_plain (B : Binary) (options : Options) (analysis : Option (Nat → Bool)) :
    Plain B (applyOptions B options analysis) := by
  rw [(applyOptions_same B options analysis).eq]
  exact ⟨rfl, rfl, rfl, rfl, rfl⟩

theorem buildEntrySet_plain (B : Binary) : Plain B (buildEntrySet B) := by
  obtain ⟨Es, hEs⟩ := buildEntrySet_frame B
  rw [hEs]
  exact ⟨rfl, rfl, rfl, rfl, rfl⟩

theorem parseReserve_plain {absolute : List Bool} {address : List Int} {bytes : List Template}
    {length : List Int} (hB : B.Allocates) (h : parseReserve B absolute address bytes length = .ok B') :
    Plain B B' := by
  rw [(parseReserve_only hB h).2]
  exact ⟨rfl, rfl, rfl, rfl, rfl⟩

theorem parseTrampoline_plain {name : List String} {template : List Template}
    (h : parseTrampoline B name template = .ok B') : Plain B B' := by
  rw [parseTrampoline_only h]
  exact ⟨rfl, rfl, rfl, rfl, rfl⟩

end

/-! ### What stays of instructions -/

/-- Instructions keep their places, and those that are to be patched keep their trampolines. -/
structure Settled (B B' : Binary) : Prop where
  count : B.count ≤ B'.count
  place : ∀ k < B.count, (B'.Is k).offset = (B.Is k).offset ∧ (B'.Is k).size = (B.Is k).size ∧
    (B'.Is k).addr = (B.Is k).addr
  marked : ∀ k < B.count, (B.Is k).patch = true → (B'.Is k).patch = true ∧ (B'.Is k).T = (B.Is k).T

theorem Settled.trans {B B' B'' : Binary} (h : Settled B B') (h' : Settled B' B'') : Settled B B'' := by
  refine ⟨h.count.trans h'.count, fun k hk => ?_, fun k hk hp => ?_⟩
  · obtain ⟨h1, h2, h3⟩ := h.place k hk
    obtain ⟨h4, h5, h6⟩ := h'.place k (Nat.lt_of_lt_of_le hk h.count)
    exact ⟨h4.trans h1, h5.trans h2, h6.trans h3⟩
  · obtain ⟨h1, h2⟩ := h.marked k hk hp
    obtain ⟨h3, h4⟩ := h'.marked k (Nat.lt_of_lt_of_le hk h.count) h1
    exact ⟨h3, h4.trans h2⟩

theorem Settled.of_eq {B B' : Binary} (hI : B'.Is = B.Is) (hc : B'.count = B.count) : Settled B B' := by
  refine ⟨hc.ge, fun k _ => ?_, fun k _ hp => ?_⟩ <;> rw [hI]
  · exact ⟨rfl, rfl, rfl⟩
  · exact ⟨hp, rfl⟩

theorem Progress.settled {B B' : Binary} (h : Progress B B') : Settled B B' := by
  refine ⟨h.count.ge, fun k _ => ?_, fun k _ hp => ?_⟩ <;> rw [h.instrs k]
  · exact ⟨rfl, rfl, rfl⟩
  · exact ⟨hp, rfl⟩

theorem patch_settled {B B' : Binary} {I : Nat} {T : Template} {o : Option Tactic} (hw : WellFormed B)
    (hI : I < B.count) (h : Binary.patch I (.user T) B = .ok (B', o)) : Settled B B' := by
  rcases patch_spec hw hI h with ⟨-, hu⟩ | ⟨C, P, Ps, -, hs, rfl⟩
  · exact hu.progress.settled
  · obtain ⟨Es, Traps, hC⟩ := commit_frame C (P :: Ps)
    exact hs.progress.settled.trans (.of_eq (by rw [hC]) (by rw [hC]))

theorem unqueue_settled {B B' : Binary} {I : Nat} (h : unqueue I B = .ok B') : Settled B B' := by
  obtain ⟨hs, -, hf⟩ := unqueue_restates h
  refine ⟨hs.count.ge, fun k _ => ⟨(hs.Is k).offset, (hs.Is k).size, (hs.Is k).addr⟩, fun k _ hp => ?_⟩
  exact ⟨(hf k).1.trans hp, (hf k).2⟩

theorem Plain.settled {B B' : Binary} (h : Plain B B') : Settled B B' := .of_eq h.Is h.count

theorem Claimed.settled {B B' : Binary} (h : Claimed B B') : Settled B B' := by
  refine ⟨by rw [h.count]; omega, fun k hk => ?_, fun k hk hp => ?_⟩ <;> rw [h.Is k (by omega)]
  · exact ⟨rfl, rfl, rfl⟩
  · exact ⟨hp, rfl⟩

/-- Accepting a patch message marks an instruction that was not marked. -/
theorem enqueue_settled {B B' : Binary} {I : Nat} {T : Template} {J : Instr} (hJ : SameMarks (B.Is I) J)
    (hp : (B.Is I).patch = false) (h : enqueue (B.setInstr I J) I T = .ok B') : Settled B B' := by
  obtain ⟨hs, -, hB'⟩ := enqueue_restates hJ h
  refine ⟨hs.count.ge, fun k _ => ⟨(hs.Is k).offset, (hs.Is k).size, (hs.Is k).addr⟩, fun k _ hpk => ?_⟩
  have hk : k ≠ I := by
    rintro rfl
    rw [hp] at hpk
    cases hpk
  rw [hB']
  simp only [setInstr, if_neg hk]
  exact ⟨hpk, trivial⟩

theorem flushEntryLog_settled {B B' : Binary} {entry : PatchEntry} {log : List Event} (hi : Invariant B)
    (hentry : entry ∈ B.Q) (h : flushEntryLog B entry = .ok (B', log)) : Settled B B' := by
  cases entry with
  | options options analysis =>
      cases h
      exact (applyOptions_plain B options analysis).settled
  | patch I T =>
      rcases flushEntryLog_patch h with ⟨-, C, o, hC, hpatch, -⟩ | ⟨-, rfl, -⟩
      · have hI := hi.queue I T hentry
        have hs := (Step.dequeue I hI hC).ok hi.wellFormed
        exact (unqueue_settled hC).trans (patch_settled hs.wellFormed (Nat.lt_of_lt_of_le hI hs.count) hpatch)
      · exact .of_eq rfl rfl

theorem Action.settled {G : Binary → Prop} {B B' : Binary} {es : List Event} (hi : Invariant B)
    (h : Action G B es B') : Settled B B' := by
  cases h with
  | instruction address length offset h => exact (instruction_claims h).1.settled
  | reserve absolute address bytes length h => exact (parseReserve_plain hi.wellFormed.allocates h).settled
  | trampoline name template h => exact (parseTrampoline_plain h).settled
  | accept I T metadata hI hp h => exact enqueue_settled (by exact ⟨rfl, rfl, rfl, rfl, rfl⟩) hp h
  | options options analysis hc hG => exact (applyOptions_plain B options analysis).settled
  | postpone options analysis hc => exact .of_eq rfl rfl
  | entrySet => exact (buildEntrySet_plain B).settled
  | cursor cursor hc => exact .of_eq rfl rfl
  | leave entry Q hQ h =>
      exact (flushEntryLog_settled hi (by rw [hQ]; simp) h).trans (.of_eq rfl rfl)

theorem Actions.settled {G : Binary → Prop} {B B' : Binary} {log : List Event} (hi : Invariant B)
    (h : Actions G B log B') : Settled B B' := by
  induction h with
  | refl => exact .of_eq rfl rfl
  | tail h ha ih => exact ih.trans (ha.settled ((h.runs hi).invariant hi))

/-! ### The start of a run -/

/-- After the binary message there are no instructions, and nothing is written or known. -/
structure Fresh (B : Binary) : Prop where
  count : B.count = 0
  bytes : B.bytes = B.original
  Q : B.Q = []
  cursor : B.cursor = INTPTR_MAX

theorem SameButOptions.fresh {B B' : Binary} (h : SameButOptions B B') (hB : Fresh B) : Fresh B' := by
  rw [h.eq]
  exact ⟨hB.count, hB.bytes, hB.Q, hB.cursor⟩

theorem parseBinary_fresh {file : File} {mode : Mode} {options : Options} {analysis : Option (Nat → Bool)}
    {B : Binary} (h : parseBinary file mode options analysis = .ok B) : Fresh B := by
  obtain ⟨C, hC, h⟩ := bind_ok.mp h
  cases h
  have hframe : Fresh (newBinary file mode options) → Fresh C := by
    refine foldlM_rel (R := fun D E => Fresh D → Fresh E) (fun D hD => hD) (fun h1 h2 hD => h2 (h1 hD))
      (fun a _ D E hf hD => ?_) hC
    obtain ⟨t, n, -, rfl⟩ := reserve_inv (reserveSegment_ok hf)
    exact ⟨hD.count, hD.bytes, hD.Q, hD.cursor⟩
  have hfresh : Fresh C := hframe ⟨rfl, rfl, rfl, rfl⟩
  exact (targetAnalysis_same _ analysis).fresh ((disableTraps_same C).fresh hfresh)

theorem Fresh.tracked {B : Binary} (h : Fresh B) : Tracked B := by
  refine ⟨fun j k _ hk => ?_, fun k hk => ?_, fun k hk => ?_, fun k hk => ?_, fun k hk => ?_⟩ <;>
    exact absurd (h.count ▸ hk) (Nat.not_lt_zero _)

/-! ### Streams that are run -/

/-- What a stream leads to. -/
def streamResult (file : File) (options : Options) (ms : List Message) : Except Fault (Binary × List Event) := do
  let B ← parseBinary file .ELF_EXE options none
  emitLog B ms

/-- A stream that does not fail, with its binary message. -/
theorem streamResult_ok (file : File) (options : Options) (ms : List Message)
    (h : (streamResult file options ms).toOption.isSome = true) :
    ∃ B₀ B log, parseBinary file .ELF_EXE options none = .ok B₀ ∧ emitLog B₀ ms = .ok (B, log) ∧
      streamResult file options ms = .ok (B, log) := by
  obtain ⟨r, hr⟩ : ∃ r, streamResult file options ms = .ok r :=
    ⟨_, ok_getD (d := (newBinary file .ELF_EXE options, [])) h⟩
  obtain ⟨B₀, h₀, h₁⟩ := bind_ok.mp hr
  exact ⟨B₀, r.1, r.2, h₀, h₁, hr⟩

end E9Patch
