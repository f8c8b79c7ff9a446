import E9Patch.OptionsTheorems

/-!
The table of trapped instructions. Each call of `patch` adds the allocation of its instruction if tactic B0
succeeds, so that the table is in the order in which the entries left the queue, and the emitter writes it
backwards.
-/

namespace E9Patch
open Bytes Binary Fallible

/-- An entry of the table; both addresses are relative to the load address. -/
structure e9_trap_s where
  rip : Int
  trampoline : Int
  deriving DecidableEq, Repr

namespace Binary

def emitTrap (B : Binary) (A : Nat) : Except Fault e9_trap_s := do
  let I ← deref (B.alloc A).I
  .ok ⟨(B.Is I).addr, B.entry A⟩

/-- The loop of `emitElf` over the traps, from the last to the first. -/
def emitTraps (B : Binary) : Except Fault (List e9_trap_s) := B.Traps.reverse.mapM B.emitTrap

end Binary

/-! ### What one patch adds -/

section
variable {B B' : Binary} {I : Nat} {T : Trampoline}

theorem tactic_B0_traps {r : Binary × List Patch} (hB : B.Allocates) (h : tactic_B0 I T B = .ok r) :
    r.2 = [] ∨ ∃ A original, r.2 = [⟨some A, I, .B0, original⟩] ∧ Live r.1.allocator A ∧
      (r.1.alloc A).I = some I := by
  unfold tactic_B0 at h
  split at h
  · cases h
    exact Or.inl rfl
  obtain ⟨o, ho, h⟩ := bind_ok.mp h
  cases o with
  | none =>
      cases h
      exact Or.inl rfl
  | some o =>
      obtain ⟨B₁, A⟩ := o
      obtain ⟨C, hC, h⟩ := bind_ok.mp h
      obtain ⟨D, hD, h⟩ := bind_ok.mp h
      cases h
      obtain ⟨ha, -⟩ := allocateTrap_spec hB ho
      obtain ⟨_, -, hC⟩ := bind_ok.mp hC
      cases hC
      have hlive : Live B₁.allocator A := by
        obtain ⟨ids, a, -, hadd⟩ := ha.added
        exact hadd.live.1
      have hsame : D.allocator = B₁.allocator := by
        rw [(patchUnused_spec hD).2.1]
        rfl
      refine Or.inr ⟨A, _, rfl, ?_, ?_⟩
      · rw [hsame]
        exact hlive
      · rw [Binary.alloc, hsame]
        exact ha.I

theorem foldl_commitPatch_traps (Ps : List Patch) (B : Binary) : (Ps.foldl commitPatch B).Traps = B.Traps := by
  induction Ps generalizing B with
  | nil => rfl
  | cons P Ps ih =>
      rw [List.foldl_cons, ih]
      unfold commitPatch
      split <;> rfl

theorem commit_not_trap {P : Patch} (Ps : List Patch) (h : P.tactic ≠ .B0) :
    (B.commit (P :: Ps)).Traps = B.Traps := by
  obtain ⟨A, I, tactic, original⟩ := P
  unfold commit
  rw [foldl_commitPatch_traps]
  split
  · rename_i heq
    cases heq
    exact absurd rfl h
  · rfl

/-- A call of `patch` adds nothing to the table, or the new allocation of its instruction. -/
theorem patch_traps {T : Template} {o : Option Tactic} (hw : WellFormed B) (hI : I < B.count)
    (h : Binary.patch I (.user T) B = .ok (B', o)) :
    B'.Traps = B.Traps ∨
      ∃ A, B'.Traps = B.Traps ++ [A] ∧ Live B'.allocator A ∧ (B'.alloc A).I = some I := by
  obtain ⟨r, hr, ⟨-, hu, rfl, -⟩ | ⟨P, Ps, hP, hs, rfl, -⟩⟩ := patch_cases hw hI (user_ne_evictee T) h
  · exact Or.inl (by rw [hu.progress.rest])
  have hrest : r.1.Traps = B.Traps := by rw [hs.progress.rest]
  obtain ⟨r', hspec, hhead, hlast⟩ := tactics_before hw hI (user_ne_evictee T) hr
  rcases orTry_cases hlast with ⟨-, rfl⟩ | ⟨hnil, hB0⟩
  · left
    rw [commit_not_trap Ps (hhead P (by rw [hP]; rfl)), hrest]
  · have hu : Unchanged B r'.1 := by
      rcases hspec with ⟨-, hu⟩ | ⟨hne, -⟩
      · exact hu
      · exact absurd hnil hne
    rcases tactic_B0_traps hu.progress.allocates hB0 with hnil' | ⟨A, original, hcons, hlive, hAI⟩
    · rw [hP] at hnil'
      cases hnil'
    · right
      obtain ⟨rfl, rfl⟩ := List.cons.inj (hP.symm.trans hcons)
      obtain ⟨Es, Traps, hC⟩ := commit_frame r.1 [⟨some A, I, .B0, original⟩]
      refine ⟨A, ?_, ?_, ?_⟩
      · unfold commit
        rw [foldl_commitPatch_traps, hrest]
      · rw [hC]
        exact hlive
      · rw [hC]
        exact hAI

end

/-! ### The table over a run -/

/-- The trapped instructions are among those whose entries have left the queue, in the same order, and each
has its allocation in the table. -/
structure Trapping (log : List Event) (B : Binary) (Is : List Nat) : Prop where
  live : ∀ A ∈ B.Traps, Live B.allocator A
  instrs : B.Traps.map (fun A => (B.alloc A).I) = Is.map some
  order : Is.Sublist ((departures log).map (·.1))

section
variable {B B' : Binary} {log es : List Event} {Is : List Nat}

theorem Trapping.keeps (h : Trapping log B Is) (hk : KeepsAllocations B.allocator B'.allocator)
    (hT : B'.Traps = B.Traps) : Trapping (log ++ es) B' Is := by
  refine ⟨fun A hA => (hk.live (h.live A (hT ▸ hA))).1, ?_, ?_⟩
  · rw [hT, ← h.instrs]
    refine List.map_congr_left fun A hA => ?_
    exact congrArg Alloc.I (hk.live (h.live A hA)).2
  · rw [departures_append, List.map_append]
    exact h.order.trans (List.sublist_append_left _ _)

theorem Trapping.add (h : Trapping log B Is) (hk : KeepsAllocations B.allocator B'.allocator) {A I : Nat}
    {T : Template} (hT : B'.Traps = B.Traps ++ [A]) (hA : Live B'.allocator A) (hI : (B'.alloc A).I = some I)
    (hd : departures es = [(I, T)]) : Trapping (log ++ es) B' (Is ++ [I]) := by
  refine ⟨fun A' hA' => ?_, ?_, ?_⟩
  · rw [hT, List.mem_append, List.mem_singleton] at hA'
    rcases hA' with hA' | rfl
    · exact (hk.live (h.live A' hA')).1
    · exact hA
  · rw [hT, List.map_append, List.map_append, ← h.instrs, List.map_singleton, hI]
    congr 1
    refine List.map_congr_left fun A hA => ?_
    exact congrArg Alloc.I (hk.live (h.live A hA)).2
  · rw [departures_append, List.map_append, hd]
    exact h.order.append (List.Sublist.refl _)

theorem applyOptions_traps (B : Binary) (options : Options) (analysis : Option (Nat → Bool)) :
    (applyOptions B options analysis).Traps = B.Traps := by
  rw [(applyOptions_same B options analysis).eq]

/-- What the flush of one entry does to the table. -/
theorem flushEntryLog_traps {entry : PatchEntry} (hi : Invariant B) (hentry : entry ∈ B.Q)
    (h : flushEntryLog B entry = .ok (B', es)) :
    B'.Traps = B.Traps ∨ ∃ A I T, B'.Traps = B.Traps ++ [A] ∧ Live B'.allocator A ∧
      (B'.alloc A).I = some I ∧ departures es = [(I, T)] := by
  cases entry with
  | options options analysis =>
      cases h
      exact Or.inl (applyOptions_traps B options analysis)
  | patch I T =>
      rcases flushEntryLog_patch h with ⟨-, C, o, hC, hpatch, rfl⟩ | ⟨-, rfl, -⟩
      · have hI := hi.queue I T hentry
        have hs := (Step.dequeue I hI hC).ok hi.wellFormed
        have hTraps : C.Traps = B.Traps := by rw [(unqueue_restates hC).2.1]
        rcases patch_traps hs.wellFormed (Nat.lt_of_lt_of_le hI hs.count) hpatch with hT | ⟨A, hT, hA, hAI⟩
        · exact Or.inl (hT.trans hTraps)
        · exact Or.inr ⟨A, I, T, by rw [hT, hTraps], hA, hAI, rfl⟩
      · exact Or.inl rfl

theorem Action.traps {G : Binary → Prop} (hi : Invariant B) (h : Trapping log B Is)
    (ha : Action G B es B') : ∃ Is', Trapping (log ++ es) B' Is' := by
  have hk := (ha.runs hi).keeps hi
  cases ha with
  | instruction address length offset ha =>
      refine ⟨Is, h.keeps hk ?_⟩
      rw [(instruction_claims ha).2]
  | reserve absolute address bytes length ha =>
      refine ⟨Is, h.keeps hk ?_⟩
      rw [(parseReserve_only hi.wellFormed.allocates ha).2]
  | trampoline name template ha =>
      refine ⟨Is, h.keeps hk ?_⟩
      rw [parseTrampoline_only ha]
  | accept I T metadata hI hp ha =>
      refine ⟨Is, h.keeps hk ?_⟩
      rw [(enqueue_restates (by exact ⟨rfl, rfl, rfl, rfl, rfl⟩) ha).2.2]
  | options options analysis hc hG => exact ⟨Is, h.keeps hk (applyOptions_traps B options analysis)⟩
  | postpone options analysis hc => exact ⟨Is, h.keeps hk rfl⟩
  | entrySet =>
      refine ⟨Is, h.keeps hk ?_⟩
      obtain ⟨Es, hEs⟩ := buildEntrySet_frame B
      rw [hEs]
  | cursor cursor hc => exact ⟨Is, h.keeps hk rfl⟩
  | leave entry Q hQ ha =>
      rcases flushEntryLog_traps hi (by rw [hQ]; simp) ha with hT | ⟨A, I, T, hT, hA, hAI, hd⟩
      · exact ⟨Is, h.keeps hk hT⟩
      · exact ⟨Is ++ [I], h.add hk hT hA hAI hd⟩

theorem Actions.traps {G : Binary → Prop} (hi : Invariant B) (hT : B.Traps = [])
    (h : Actions G B log B') : ∃ Is, Trapping log B' Is := by
  induction h with
  | refl =>
      refine ⟨[], fun A hA => ?_, ?_, List.nil_sublist _⟩
      · rw [hT] at hA
        cases hA
      · rw [hT]
        rfl
  | tail h ha ih =>
      obtain ⟨Is, hIs⟩ := ih
      exact ha.traps ((h.runs hi).invariant hi) hIs

theorem parseBinary_traps {file : File} {mode : Mode} {options : Options} {analysis : Option (Nat → Bool)}
    (h : parseBinary file mode options analysis = .ok B) : B.Traps = [] := by
  obtain ⟨C, hC, h⟩ := bind_ok.mp h
  cases h
  have hframe : C.Traps = (newBinary file mode options).Traps := by
    refine foldlM_rel (R := fun D E => E.Traps = D.Traps) (fun _ => rfl)
      (fun {D E F} (h1 : E.Traps = D.Traps) (h2 : F.Traps = E.Traps) => h2.trans h1) (fun a _ D E hf => ?_) hC
    obtain ⟨t, n, -, rfl⟩ := reserve_inv (reserveSegment_ok hf)
    rfl
  rw [((disableTraps_same C).trans (targetAnalysis_same _ analysis)).eq]
  exact hframe

end

/-! ### The order of the table -/

/-- The patch messages came in the reverse order of the addresses of their instructions. -/
def Descending (B : Binary) (log : List Event) : Prop :=
  ((arrivals log).map fun x => (B.Is x.1).addr).Pairwise (· > ·)

section
variable {B : Binary}

/-- A patch message that is not batched is for an instruction below the cursor, and moves it there. -/
theorem parseMessageLog_arrives {m : Message} {r : Binary × List Event} (hi : Invariant B) (hs : Streaming B)
    (h : parseMessageLog B m = .ok r) : arrivals r.2 = [] ∨ ∃ x, arrivals r.2 = [x] ∧ x.1 < r.1.count ∧
      r.1.cursor ≤ (r.1.Is x.1).addr ∧ (r.1.Is x.1).addr < B.cursor := by
  have hlen := parseMessageLog_arrivals h
  cases m with
  | patch trampoline offset metadata =>
      obtain ⟨I, T, C, haccept, hcases⟩ := parsePatchLog_cases (G := fun _ => True) h
      have hiC := (haccept.runs hi).invariant hi
      have hbatch := (haccept.streaming hi hs fun o ho => by cases ho).1
      have hIC : I < C.count := by
        cases haccept with
        | accept _ _ metadata hI hp ha =>
            exact Nat.lt_of_lt_of_le hI (enqueue_settled (by exact ⟨rfl, rfl, rfl, rfl, rfl⟩) hp ha).count
        | leave entry Q hQ ha => cases (flushEntryLog_leaves ha (.accepted I T) (List.mem_singleton_self _)).1
      rcases hcases with ⟨hon, -⟩ | ⟨-, u, hu, rfl⟩
      · rw [hbatch] at hon
        cases hon
      · have harr : arrivals (.accepted I T :: u.2) = [(I, T)] := by
          show arrivals ([Event.accepted I T] ++ u.2) = _
          rw [arrivals_append, (queueFlushLog_leaves hu).1]
          rfl
        have hall := (queueFlushLog_actions (G := fun _ => True) hu).settled hiC
        have haddr := (hall.place I hIC).2.2
        obtain ⟨_, hc, hu⟩ := bind_ok.mp hu
        rw [failIf_ok] at hc
        have hcursor : Action (fun _ => True) C [] { C with cursor := (C.Is I).addr } := .cursor _ (by omega)
        have hflush : Actions (fun _ => True) { C with cursor := (C.Is I).addr } u.2 u.1 :=
          flushLoopLog_actions rfl hu
        refine Or.inr ⟨(I, T), harr, Nat.lt_of_lt_of_le hIC hall.count, ?_, ?_⟩
        · rw [haddr]
          exact hflush.cursor_le ((hcursor.runs hiC).invariant hiC)
        · calc (u.1.Is I).addr = (C.Is I).addr := haddr
            _ < C.cursor := by omega
            _ ≤ B.cursor := haccept.cursor_le hi
  | _ => exact Or.inl (List.eq_nil_of_length_eq_zero hlen)

/-- Without batch mode, a patch message that is not below all earlier ones is not accepted. -/
theorem serveLog_descends {ms : List Message} {r : Binary × List Event} (hi : Invariant B) (hs : Streaming B)
    (hms : KeepsStreaming ms) (h : serveLog B ms = .ok r) :
    (∀ x ∈ arrivals r.2, (r.1.Is x.1).addr < B.cursor) ∧ Descending r.1 r.2 := by
  induction ms generalizing B r with
  | nil =>
      cases h
      exact ⟨fun x hx => (List.not_mem_nil hx).elim, List.Pairwise.nil⟩
  | cons m ms ih =>
      obtain ⟨s, hfirst, h⟩ := bind_ok.mp h
      obtain ⟨u, hrest, h⟩ := bind_ok.mp h
      cases h
      have hhead : KeepsStreaming [m] := fun argv hm => hms argv (List.mem_cons.mpr (Or.inl (List.mem_singleton.mp hm)))
      have hactions := parseMessageLog_actions (inTime_true B [m]).1 hfirst
      have hi' := (hactions.runs hi).invariant hi
      have hle := hactions.cursor_le hi
      obtain ⟨hbelow, hdesc⟩ := ih hi' (hactions.streaming hi hs (parseMessageLog_sent hhead hfirst))
        (fun argv hm => hms argv (List.mem_cons_of_mem _ hm)) hrest
      have hsettled := (serveLog_actions (inTime_true s.1 ms) hrest).settled hi'
      have happend := arrivals_append s.2 u.2
      rcases parseMessageLog_arrives hi hs hfirst with hnone | ⟨x, hone, hx, hfrom, hto⟩
      · rw [hnone, List.nil_append] at happend
        refine ⟨fun y hy => ?_, ?_⟩
        · exact Int.lt_of_lt_of_le (hbelow y (happend ▸ hy)) hle
        · rw [Descending, happend]
          exact hdesc
      · rw [hone, List.singleton_append] at happend
        have haddr := (hsettled.place x.1 hx).2.2
        refine ⟨fun y hy => ?_, ?_⟩
        · rcases List.mem_cons.mp (happend ▸ hy) with rfl | hy
          · rw [haddr]
            exact hto
          · exact Int.lt_of_lt_of_le (hbelow y hy) hle
        · rw [Descending, happend, List.map_cons, List.pairwise_cons]
          refine ⟨fun a ha => ?_, hdesc⟩
          obtain ⟨y, hy, rfl⟩ := List.mem_map.mp ha
          have := hbelow y hy
          show (u.1.Is y.1).addr < (u.1.Is x.1).addr
          omega

end

section
variable {file : File} {mode : Mode} {options : Options} {analysis : Option (Nat → Bool)} {B₀ B : Binary}
  {ms : List Message} {log : List Event}

/-- Without batch mode the stream is in the order that the protocol asks for. -/
theorem streaming_descends (h₀ : parseBinary file mode options analysis = .ok B₀)
    (hbatch : B₀.options.option_batch = false) (hms : KeepsStreaming ms) (h : emitLog B₀ ms = .ok (B, log)) :
    Descending B log := by
  have hi := parseBinary_invariant h₀
  have hQ : B₀.Q = [] := (parseBinary_fresh h₀).Q
  obtain ⟨s, hs, h⟩ := bind_ok.mp h
  obtain ⟨u, hu, h⟩ := bind_ok.mp h
  cases h
  have hserve := serveLog_actions (inTime_true B₀ ms) hs
  have hstream : Streaming B₀ := ⟨hbatch, by rw [hQ]; exact fun o ho => by cases ho⟩
  have hdesc := (serveLog_descends hi hstream hms hs).2
  have hi' := (hserve.runs hi).invariant hi
  have hflush : Actions (fun _ => True) s.1 u.2 u.1 := Actions.one .entrySet (queueFlushLog_actions hu)
  have hexact := hserve.exact ((parseBinary_fresh h₀).exact hi)
  rw [Descending, arrivals_append, (queueFlushLog_leaves hu).1, List.append_nil]
  have hsame : (arrivals s.2).map (fun x => (u.1.Is x.1).addr) = (arrivals s.2).map fun x => (s.1.Is x.1).addr := by
    refine List.map_congr_left fun x hx => ?_
    exact ((hflush.settled hi').place x.1 (hexact.marked x (by simpa using hx)).1).2.2
  rw [hsame]
  exact hdesc

end

/-! ### The emitted table -/

/-- The entries of the table are the addresses of the instructions and the entries of the allocations. -/
theorem mapM_emitTrap {B : Binary} {As Is : List Nat} (h : As.map (fun A => (B.alloc A).I) = Is.map some) :
    ∃ table, As.mapM B.emitTrap = .ok table ∧ table.map (·.rip) = Is.map (fun I => (B.Is I).addr) ∧
      ∀ t, t ∈ table ↔ ∃ A I, A ∈ As ∧ (B.alloc A).I = some I ∧ t = ⟨(B.Is I).addr, B.entry A⟩ := by
  induction As generalizing Is with
  | nil =>
      obtain rfl : Is = [] := by simpa using h.symm
      exact ⟨[], rfl, rfl, fun t => by simp⟩
  | cons A As ih =>
      cases Is with
      | nil => cases h
      | cons I Is =>
          obtain ⟨hI, hAs⟩ : (B.alloc A).I = some I ∧ As.map (fun A => (B.alloc A).I) = Is.map some := List.cons.inj h
          obtain ⟨table, htable, hrips, hmem⟩ := ih hAs
          refine ⟨⟨(B.Is I).addr, B.entry A⟩ :: table, ?_, ?_, fun t => ?_⟩
          · rw [List.mapM_cons, bind_ok]
            refine ⟨⟨(B.Is I).addr, B.entry A⟩, ?_, ?_⟩
            · rw [emitTrap, bind_ok]
              exact ⟨I, by rw [hI]; rfl, rfl⟩
            · rw [bind_ok]
              exact ⟨table, htable, rfl⟩
          · rw [List.map_cons, List.map_cons, hrips]
          · rw [List.mem_cons, hmem]
            constructor
            · rintro (rfl | ⟨A', I', hA', hI', rfl⟩)
              · exact ⟨A, I, List.mem_cons_self, hI, rfl⟩
              · exact ⟨A', I', List.mem_cons_of_mem _ hA', hI', rfl⟩
            · rintro ⟨A', I', hA', hI', rfl⟩
              rcases List.mem_cons.mp hA' with rfl | hA'
              · rw [hI] at hI'
                cases hI'
                exact Or.inl rfl
              · exact Or.inr ⟨A', I', hA', hI', rfl⟩

/-- The emitted table ascends if the patch messages came in reverse order. -/
theorem emitTraps_ascends {file : File} {mode : Mode} {options : Options} {analysis : Option (Nat → Bool)}
    {B₀ B : Binary} {ms : List Message} {log : List Event} (h₀ : parseBinary file mode options analysis = .ok B₀)
    (h : emitLog B₀ ms = .ok (B, log)) :
    ∃ table, B.emitTraps = .ok table ∧
      (∀ t, t ∈ table ↔ ∃ A I, A ∈ B.Traps ∧ (B.alloc A).I = some I ∧ t = ⟨(B.Is I).addr, B.entry A⟩) ∧
      (Descending B log → (table.map (·.rip)).Pairwise (· < ·)) := by
  have hi := parseBinary_invariant h₀
  have hactions := emitLog_actions (inTime_true B₀ ms) h
  obtain ⟨Is, hIs⟩ := hactions.traps hi (parseBinary_traps h₀)
  have hexact := hactions.exact ((parseBinary_fresh h₀).exact hi)
  rw [List.nil_append] at hexact
  obtain ⟨table, htable, hrips, hmem⟩ := @mapM_emitTrap B B.Traps.reverse Is.reverse (by
    rw [List.map_reverse, hIs.instrs, List.map_reverse])
  refine ⟨table, htable, fun t => ?_, fun hdesc => ?_⟩
  · rw [hmem]
    simp only [List.mem_reverse]
  · have hsub : (Is.map fun I => (B.Is I).addr).Sublist ((arrivals log).map fun x => (B.Is x.1).addr) := by
      rw [hexact.order, List.map_append]
      refine List.Sublist.trans ?_ (List.sublist_append_left _ _)
      simpa only [List.map_map, Function.comp_def] using hIs.order.map fun I => (B.Is I).addr
    rw [hrips, List.map_reverse, List.pairwise_reverse]
    exact hdesc.sublist hsub

end E9Patch
