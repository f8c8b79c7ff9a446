import E9Patch.PatchTracks

/-!
A record of what happens to messages and to the entries of the queue. The functions here do what those of
the same name without `Log` do, and note down the events in their order.
-/

namespace E9Patch
open Bytes Binary Fallible

inductive Event where
  /-- A patch message was accepted, and an options message. -/
  | accepted (I : Nat) (T : Template)
  | sent (options : Options) (analysis : Option (Nat → Bool))
  /-- Options were applied, by the message itself or by the entry of the queue. -/
  | applied (options : Options) (analysis : Option (Nat → Bool))
  /-- `patch` was called for an entry of the queue, under these options and with this result. -/
  | patched (I : Nat) (T : Template) (options : Options) (success : Bool)
  /-- An entry whose instruction is taken to be part of a T0 batch. -/
  | batched (I : Nat) (T : Template)

def flushEntryLog (B : Binary) : PatchEntry → Except Fault (Binary × List Event)
  | .options options analysis => .ok (applyOptions B options analysis, [.applied options analysis])
  | .patch I T =>
    if B.STATE I 0 = STATE_QUEUED then do
      let B ← unqueue I B
      let r ← Binary.patch I (.user T) B
      .ok (r.1, [.patched I T B.options r.2.isSome])
    else .ok (B, [.batched I T])

def flushLoopLog (cursor : Int) : List PatchEntry → Binary → Except Fault (Binary × List Event)
  | [], B => .ok ({ B with Q := [] }, [])
  | entry :: Q, B =>
    if due B cursor entry then do
      let r ← flushEntryLog { B with Q := entry :: Q } entry
      let s ← flushLoopLog cursor Q { r.1 with Q := Q }
      .ok (s.1, r.2 ++ s.2)
    else .ok ({ B with Q := entry :: Q }, [])

def queueFlushLog (B : Binary) (cursor : Int) : Except Fault (Binary × List Event) := do
  failIf (B.cursor ≤ cursor)
    "failed to patch instruction at address 0x%lx; \"patch\" messages were not send in reverse order"
  flushLoopLog (cursor + lookahead) B.Q { B with cursor := cursor }

def queuePatchLog (B : Binary) (I : Nat) (T : Template) : Except Fault (Binary × List Event) := do
  let B ← enqueue B I T
  if !B.options.option_batch then do
    let r ← queueFlushLog B (B.Is I).addr
    .ok (r.1, .accepted I T :: r.2)
  else .ok (B, [.accepted I T])

def parsePatchLog (B : Binary) (trampoline : List Template) (offset : List Int)
    (metadata : List (List MetaEntry)) : Except Fault (Binary × List Event) := do
  let T ← param trampoline
    "failed to parse \"patch\" message (id=%u); missing \"trampoline\" parameter"
  let off ← param offset
    "failed to parse \"patch\" message (id=%u); missing \"offset\" parameter"
  failIf (dup trampoline ∨ dup offset ∨ dup metadata)
    "failed to parse \"patch\" message (id=%u); duplicate parameters detected"
  match findInstr B off with
  | none =>
    .error (.error "failed to parse \"patch\" message (id=%u); no matching instruction at offset (%zd)")
  | some I =>
    failIf (B.Is I).patch
      "failed to parse \"patch\" message (id=%u); instruction at address (0x%lx) is already queued for patching"
    let B := B.setInstr I { B.Is I with
      patch := true, metadata := metadata.getLast?.getD [], T := some (.user T) }
    queuePatchLog B I T

def parseOptionsLog (B : Binary) (argv : List (Options × Option (Nat → Bool))) :
    Except Fault (Binary × List Event) := do
  let o ← param argv "failed to parse \"options\" message (id=%u); missing \"argv\" parameter"
  failIf (dup argv) "failed to parse \"options\" message (id=%u); duplicate parameters detected"
  .ok (if B.cursor = INTPTR_MAX then (applyOptions B o.1 o.2, [.sent o.1 o.2, .applied o.1 o.2])
    else ({ B with Q := B.Q ++ [.options o.1 o.2] }, [.sent o.1 o.2]))

def parseMessageLog (B : Binary) : Message → Except Fault (Binary × List Event)
  | .patch trampoline offset metadata => parsePatchLog B trampoline offset metadata
  | .options argv => parseOptionsLog B argv
  | m => (parseMessage B m).map fun B => (B, [])

/-- The messages of a stream behind its first. -/
def serveLog (B : Binary) : List Message → Except Fault (Binary × List Event)
  | [] => .ok (B, [])
  | m :: ms => do
    let r ← parseMessageLog B m
    let s ← serveLog r.1 ms
    .ok (s.1, r.2 ++ s.2)

/-- A stream that ends with an emit message, up to the point where its queue has been flushed. -/
def emitLog (B : Binary) (ms : List Message) : Except Fault (Binary × List Event) := do
  let r ← serveLog B ms
  let s ← queueFlushLog (buildEntrySet r.1) INTPTR_MIN
  .ok (s.1, r.2 ++ s.2)

/-! ### Reading the record -/

/-- The entry of an accepted patch message. -/
def Event.arrival : Event → Option (Nat × Template)
  | .accepted I T => some (I, T)
  | _ => none

/-- The entry that left the queue. -/
def Event.departure : Event → Option (Nat × Template)
  | .patched I T _ _ => some (I, T)
  | .batched I T => some (I, T)
  | _ => none

/-- Whether `stat_num_patched` is incremented, and whether `stat_num_failed` is. -/
def Event.isPatched : Event → Bool
  | .patched _ _ _ success => success
  | .batched _ _ => true
  | _ => false

def Event.isFailed : Event → Bool
  | .patched _ _ _ success => !success
  | _ => false

/-- The options of an options message, and those that were applied. -/
def Event.message : Event → Option (Options × Option (Nat → Bool))
  | .sent options analysis => some (options, analysis)
  | _ => none

def Event.setting : Event → Option (Options × Option (Nat → Bool))
  | .applied options analysis => some (options, analysis)
  | _ => none

def arrivals (log : List Event) : List (Nat × Template) := log.filterMap Event.arrival
def departures (log : List Event) : List (Nat × Template) := log.filterMap Event.departure
def sent (log : List Event) : List (Options × Option (Nat → Bool)) := log.filterMap Event.message
def settings (log : List Event) : List (Options × Option (Nat → Bool)) := log.filterMap Event.setting
def num_patched (log : List Event) : Nat := log.countP Event.isPatched
def num_failed (log : List Event) : Nat := log.countP Event.isFailed

/-- The entries for patches in the queue, and those for options. -/
def PatchEntry.instr : PatchEntry → Option (Nat × Template)
  | .patch I T => some (I, T)
  | .options _ _ => none

def PatchEntry.argv : PatchEntry → Option (Options × Option (Nat → Bool))
  | .patch _ _ => none
  | .options o a => some (o, a)

def waiting (Q : List PatchEntry) : List (Nat × Template) := Q.filterMap PatchEntry.instr
def postponed (Q : List PatchEntry) : List (Options × Option (Nat → Bool)) := Q.filterMap PatchEntry.argv

def Message.isPatch : Message → Bool
  | .patch _ _ _ => true
  | _ => false

theorem arrivals_append (log es : List Event) : arrivals (log ++ es) = arrivals log ++ arrivals es :=
  List.filterMap_append
theorem departures_append (log es : List Event) : departures (log ++ es) = departures log ++ departures es :=
  List.filterMap_append
theorem sent_append (log es : List Event) : sent (log ++ es) = sent log ++ sent es := List.filterMap_append
theorem settings_append (log es : List Event) : settings (log ++ es) = settings log ++ settings es :=
  List.filterMap_append

/-- Each entry that leaves is counted once. -/
theorem num_departures (log : List Event) : num_patched log + num_failed log = (departures log).length := by
  induction log with
  | nil => rfl
  | cons e log ih =>
      rw [num_patched, num_failed, departures] at ih ⊢
      rw [List.countP_cons, List.countP_cons, List.filterMap_cons]
      cases e with
      | patched I T options success =>
          cases success <;> simp [Event.isPatched, Event.isFailed, Event.departure] <;> omega
      | batched I T =>
          simp [Event.isPatched, Event.isFailed, Event.departure]
          omega
      | accepted I T => simpa [Event.isPatched, Event.isFailed, Event.departure] using ih
      | sent o a => simpa [Event.isPatched, Event.isFailed, Event.departure] using ih
      | applied o a => simpa [Event.isPatched, Event.isFailed, Event.departure] using ih

/-! ### The record is of what is done -/

/-- The first component of a computation that goes on behind another. -/
theorem map_fst_bind {α β γ : Type} {x : Except Fault (α × γ)} {y : Except Fault α}
    {f : α × γ → Except Fault (β × γ)} {g : α → Except Fault β} (hx : x.map (·.1) = y)
    (hf : ∀ r, (f r).map (·.1) = g r.1) : (x >>= f).map (·.1) = y >>= g := by
  subst hx
  cases x with
  | error e => rfl
  | ok r => exact hf r

/-- The first component of a computation that goes on behind a plain one. -/
theorem map_fst_rest {α β γ : Type} {x : Except Fault α} {f : α → Except Fault (β × γ)}
    {g : α → Except Fault β} (hf : ∀ a, (f a).map (·.1) = g a) : (x >>= f).map (·.1) = x >>= g := by
  cases x with
  | error e => rfl
  | ok a => exact hf a

theorem flushEntryLog_fst (B : Binary) (entry : PatchEntry) :
    (flushEntryLog B entry).map (·.1) = flushEntry B entry := by
  cases entry with
  | options options analysis => rfl
  | patch I T =>
      simp only [flushEntryLog, flushEntry]
      split
      · exact map_fst_rest fun C => map_fst_rest fun r => rfl
      · rfl

theorem flushLoopLog_fst (cursor : Int) (Q : List PatchEntry) (B : Binary) :
    (flushLoopLog cursor Q B).map (·.1) = flushLoop cursor Q B := by
  induction Q generalizing B with
  | nil => rfl
  | cons entry Q ih =>
      simp only [flushLoopLog, flushLoop]
      split
      · refine map_fst_bind (flushEntryLog_fst _ _) fun r => ?_
        rw [← ih]
        cases flushLoopLog cursor Q { r.1 with Q := Q } <;> rfl
      · rfl

theorem queueFlushLog_fst (B : Binary) (cursor : Int) :
    (queueFlushLog B cursor).map (·.1) = queueFlush B cursor :=
  map_fst_rest fun _ => flushLoopLog_fst _ _ _

theorem queuePatchLog_fst (B : Binary) (I : Nat) (T : Template) :
    (queuePatchLog B I T).map (·.1) = queuePatch B I T := by
  refine map_fst_rest fun C => ?_
  split
  · rw [← queueFlushLog_fst]
    cases queueFlushLog C (C.Is I).addr <;> rfl
  · rfl

theorem parsePatchLog_fst (B : Binary) (trampoline : List Template) (offset : List Int)
    (metadata : List (List MetaEntry)) :
    (parsePatchLog B trampoline offset metadata).map (·.1) = parsePatch B trampoline offset metadata := by
  refine map_fst_rest fun T => map_fst_rest fun off => map_fst_rest fun _ => ?_
  cases findInstr B off with
  | none => rfl
  | some I => exact map_fst_rest fun _ => queuePatchLog_fst _ _ _

theorem parseOptionsLog_fst (B : Binary) (argv : List (Options × Option (Nat → Bool))) :
    (parseOptionsLog B argv).map (·.1) = parseOptions B argv := by
  refine map_fst_rest fun o => map_fst_rest fun _ => ?_
  split <;> rfl

theorem parseMessageLog_fst (B : Binary) (m : Message) :
    (parseMessageLog B m).map (·.1) = parseMessage B m := by
  have hid : ∀ x : Except Fault Binary, (x.map fun B => (B, ([] : List Event))).map (·.1) = x := by
    intro x
    cases x <;> rfl
  cases m with
  | instruction address length offset => exact hid _
  | patch trampoline offset metadata => exact parsePatchLog_fst B trampoline offset metadata
  | options argv => exact parseOptionsLog_fst B argv
  | reserve absolute address bytes length => exact hid _
  | trampoline name template => exact hid _

theorem serveLog_fst (B : Binary) (ms : List Message) :
    (serveLog B ms).map (·.1) = ms.foldlM parseMessage B := by
  induction ms generalizing B with
  | nil => rfl
  | cons m ms ih =>
      rw [List.foldlM_cons]
      refine map_fst_bind (parseMessageLog_fst B m) fun r => ?_
      rw [← ih]
      cases serveLog r.1 ms <;> rfl

/-- A stream with its record leads to where it leads without. -/
theorem emitLog_fst (B : Binary) (ms : List Message) :
    (emitLog B ms).map (·.1) = ms.foldlM parseMessage B >>= flushAll := by
  refine map_fst_bind (serveLog_fst B ms) fun r => ?_
  rw [flushAll, ← queueFlushLog_fst]
  cases queueFlushLog (buildEntrySet r.1) INTPTR_MIN <;> rfl

end E9Patch
