import E9Patch.QueueRun

/-!
The patch queue. Every entry leaves it in the order of arrival, to be patched or because a batch has its
instruction, and the flush before emission leaves none behind, but for instructions at the very bottom of
the address space. Options that are applied late are applied between the same patches.
-/

namespace E9Patch
open Bytes Binary Fallible

/-! ### Waiting entries -/

def AllQueued (B : Binary) (k : Nat) : Prop := ∀ i < (B.Is k).size, B.STATE k i = STATE_QUEUED

/-- The instructions that the trampoline of a batch, from `J` to the address `addr`, runs through. -/
def batchInstrs (B : Binary) (addr : Int) (J : Nat) : List Nat :=
  match batchLoop B addr (fun Ks K _ => .ok (some (Ks ++ [K]))) (B.count + 1) [] none (some J) with
  | .ok (some r) => r.1
  | _ => []

/-- The instruction is in a batch that was placed, and the trampoline of the batch instantiates `T` there. -/
def Consumed (B : Binary) (I : Nat) (T : Template) : Prop :=
  (∃ A J addr, Live B.allocator A ∧ (B.alloc A).I = some J ∧ (B.alloc A).T = some (.batch addr) ∧
    I ∈ batchInstrs B addr J) ∧ (B.Is I).T = some (.user T)

/-- What is known of an entry in the queue. -/
structure Waits (B : Binary) (I : Nat) (T : Template) : Prop where
  lt : I < B.count
  patch : (B.Is I).patch = true
  T : (B.Is I).T = some (.user T)
  state : AllQueued B I ∨ Batched B I

section
variable {B B' C : Binary} {I k : Nat} {T : Template}

/-- The batch loop runs from `j` down to the instruction at its last address. -/
theorem batchLoop_collect (hw : WellFormed B) {L : Nat} (fuel : Nat) (Ks : List Nat)
    (J K : Option Nat) : ∃ Ks' J' K',
      batchLoop B (B.Is L).addr (fun Ks K _ => .ok (some (Ks ++ [K]))) fuel Ks J K =
        .ok (some (Ks', J', K')) ∧ (∀ k ∈ Ks, k ∈ Ks') ∧
      ∀ j ∈ K, L ≤ j → j < B.count → j < fuel + L → ∀ k, L ≤ k → k ≤ j → k ∈ Ks' := by
  induction fuel generalizing Ks J K with
  | zero => exact ⟨Ks, J, K, rfl, fun k => id, fun j _ h1 _ h2 => absurd h2 (by omega)⟩
  | succ fuel ih =>
      cases K with
      | none => exact ⟨Ks, J, none, rfl, fun k => id, fun j hj => by cases hj⟩
      | some K =>
          unfold batchLoop
          simp only
          by_cases haddr : (B.Is K).addr > (B.Is L).addr
          · rw [if_pos haddr]
            refine ⟨Ks, J, some K, rfl, fun k => id, fun j hj hLj hjc => ?_⟩
            obtain rfl : K = j := by simpa using hj
            rcases Nat.lt_or_eq_of_le hLj with hlt | rfl
            · exact absurd (hw.addr_lt hlt hjc) (by omega)
            · exact absurd haddr (Int.lt_irrefl _)
          · rw [if_neg haddr]
            obtain ⟨Ks', J', K', hrun, hsub, hall⟩ := ih (Ks ++ [K]) (some K) (B.next K)
            refine ⟨Ks', J', K', hrun, fun k hk => hsub k (List.mem_append_left _ hk),
              fun j hj hLj hjc hjf k hLk hkj => ?_⟩
            obtain rfl : K = j := by simpa using hj
            rcases Nat.lt_or_eq_of_le hkj with hlt | rfl
            · obtain ⟨K, rfl⟩ : ∃ n, K = n + 1 := ⟨K - 1, by omega⟩
              have hnext : B.next (K + 1) = some K := by
                have hoff := hw.offsets K (K + 1) (by omega) hjc
                have hsize := (hw.size (K + 1) hjc).1
                simp only [Binary.next, Binary.instrAt, if_neg (show ¬(B.Is K).offset = 0 by omega)]
              exact hall K (by rw [hnext]; rfl) (by omega) (by omega) (by omega) k hLk (by omega)
            · exact hsub k (List.mem_append_right _ (List.mem_singleton.mpr rfl))

theorem Batched.consumed (hw : WellFormed B) (h : Batched B I) (hT : (B.Is I).T = some (.user T)) :
    Consumed B I T := by
  obtain ⟨A, J, L, hl, hAI, hAT, hLk, hkJ, hJ⟩ := h
  refine ⟨⟨A, J, (B.Is L).addr, hl, hAI, hAT, ?_⟩, hT⟩
  obtain ⟨Ks', J', K', hrun, -, hall⟩ := batchLoop_collect hw (L := L) (B.count + 1) [] none (some J)
  rw [batchInstrs, hrun]
  exact hall J rfl (by omega) hJ (by omega) I hLk hkJ

theorem Batched.stays (h : Batched B k) (hs : Settled B B')
    (hk : KeepsAllocations B.allocator B'.allocator) : Batched B' k := by
  obtain ⟨A, J, L, hl, hAI, hAT, hLk, hkJ, hJ⟩ := h
  obtain ⟨hl', ha⟩ := hk.live hl
  have halloc : B'.alloc A = B.alloc A := ha
  refine ⟨A, J, L, hl', by rw [halloc, hAI], ?_, hLk, hkJ, Nat.lt_of_lt_of_le hJ hs.count⟩
  rw [halloc, hAT, (hs.place L (by omega)).2.2]

theorem Waits.stays (h : Waits B I T) (hs : Settled B B') (hk : KeepsAllocations B.allocator B'.allocator)
    (hq : AllQueued B I → AllQueued B' I ∨ Batched B' I) : Waits B' I T := by
  obtain ⟨hp, hT⟩ := hs.marked I h.lt h.patch
  exact ⟨Nat.lt_of_lt_of_le h.lt hs.count, hp, hT.trans h.T, h.state.elim hq fun hb => Or.inr (hb.stays hs hk)⟩

/-- While its first byte is in the queue, all of the instruction is. -/
theorem Waits.all_queued (h : Waits B I T) (hw : WellFormed B) (ht : Tracked B)
    (hq : B.STATE I 0 = STATE_QUEUED) : AllQueued B I :=
  fun i hi => ht.uniform I h.lt 0 (hw.size I h.lt).1 i hi hq

theorem Waits.consumed (h : Waits B I T) (hw : WellFormed B) (hq : B.STATE I 0 ≠ STATE_QUEUED) :
    Consumed B I T := by
  rcases h.state with hall | hb
  · exact absurd (hall 0 (hw.size I h.lt).1) hq
  · exact hb.consumed hw h.T

/-- The assertion of the flush holds. -/
theorem unqueue_total (h : AllQueued B I) : ∃ C, unqueue I B = .ok C := by
  obtain ⟨C, hC⟩ : ∃ C, (List.range (B.Is I).size).foldlM (unqueueByte I) B = .ok C := by
    refine foldlM_total (P := fun l C => l.Nodup ∧ C.Is = B.Is ∧ ∀ i ∈ l, C.STATE I i = STATE_QUEUED)
      (fun i l C hP => ?_) ⟨List.nodup_range, rfl, fun i hi => h i (List.mem_range.mp hi)⟩
    obtain ⟨hn, hIs, hq⟩ := hP
    rw [List.nodup_cons] at hn
    refine ⟨C.setState ((C.Is I).offset + i) STATE_INSTRUCTION, ?_, hn.2, hIs, fun j hj => ?_⟩
    · rw [unqueueByte, bind_ok]
      exact ⟨(), assert_ok.mpr (hq i (by simp)), rfl⟩
    · have hne : j ≠ i := fun he => hn.1 (he ▸ hj)
      have hstate := hq j (by simp [hj])
      rw [STATE] at hstate ⊢
      show (if _ then _ else _) = _
      rw [if_neg (by show ¬(C.Is I).offset + j = _; omega)]
      exact hstate
  exact ⟨_, by rw [unqueue, bind_ok]; exact ⟨C, hC, rfl⟩⟩

/-! ### What calls of `patch` do to waiting entries -/

theorem Touches.waits (h : Touches I B B') (hw : WellFormed B) (hk : k < B.count) (hq : AllQueued B k) :
    AllQueued B' k ∨ Batched B' k := by
  have hqueued : Queued B k := ⟨0, (hw.size k hk).1, hq 0 (hw.size k hk).1⟩
  have hspared : ∀ {S R}, Tracks S R B B' → (B'.Is k).is_patched = false → AllQueued B' k := by
    intro S R htr hp i hi
    rw [(htr.place k).2] at hi
    exact (htr.same_queue hk hp hi).mpr (hq i hi)
  rcases h with htr | ⟨-, R, htr, hb⟩
  · cases hp : (B'.Is k).is_patched with
    | true => exact (htr.queued k hk hp hqueued).elim
    | false => exact Or.inl (hspared htr hp)
  · cases hp : (B'.Is k).is_patched with
    | true => exact Or.inr (hb k (htr.queued k hk hp hqueued))
    | false => exact Or.inl (hspared htr hp)

theorem patch_waits {o : Option Tactic} (hw : WellFormed B) (ht : Tracked B) (hI : I < B.count)
    (h : Binary.patch I (.user T) B = .ok (B', o)) (hk : k < B.count) (hq : AllQueued B k) :
    AllQueued B' k ∨ Batched B' k := by
  rcases patch_touches hw ht hI h with ⟨-, t, rfl, -⟩ | ⟨-, htouch⟩
  · exact Or.inl hq
  · exact htouch.waits hw hk hq

theorem Plain.waits (h : Plain B B') (hq : AllQueued B k) : AllQueued B' k := by
  intro i hi
  rw [STATE, h.Is, h.state]
  rw [h.Is] at hi
  exact hq i hi

end

/-! ### Exactness of the queue -/

theorem mem_waiting {Q : List PatchEntry} {I : Nat} {T : Template} :
    (I, T) ∈ waiting Q ↔ PatchEntry.patch I T ∈ Q := by
  rw [waiting, List.mem_filterMap]
  constructor
  · rintro ⟨entry, hm, he⟩
    cases entry with
    | options o a => cases he
    | patch J U =>
        cases he
        exact hm
  · exact fun hm => ⟨_, hm, rfl⟩

/-- What holds of the queue between the actions of a run. -/
structure Exact (log : List Event) (B : Binary) : Prop where
  invariant : Invariant B
  tracked : Tracked B
  order : arrivals log = departures log ++ waiting B.Q
  once : ((arrivals log).map (·.1)).Nodup
  marked : ∀ x ∈ arrivals log, x.1 < B.count ∧ (B.Is x.1).patch = true
  waits : ∀ I T, PatchEntry.patch I T ∈ B.Q → Waits B I T

section
variable {B B' : Binary} {log es : List Event}

theorem Exact.still_marked (h : Exact log B) (hs : Settled B B') :
    ∀ x ∈ arrivals log, x.1 < B'.count ∧ (B'.Is x.1).patch = true := by
  intro x hx
  obtain ⟨hlt, hp⟩ := h.marked x hx
  exact ⟨Nat.lt_of_lt_of_le hlt hs.count, (hs.marked x.1 hlt hp).1⟩

/-- Actions by which no entry for a patch comes or goes. -/
theorem Exact.quiet (h : Exact log B) (hr : Runs B B') (ht : Tracked B') (hs : Settled B B')
    (hQ : waiting B'.Q = waiting B.Q) (ha : arrivals es = []) (hd : departures es = [])
    (hq : ∀ k < B.count, AllQueued B k → AllQueued B' k) : Exact (log ++ es) B' := by
  refine ⟨hr.invariant h.invariant, ht, ?_, ?_, ?_, fun I T hm => ?_⟩
  · rw [arrivals_append, departures_append, ha, hd, List.append_nil, List.append_nil, hQ, h.order]
  · rw [arrivals_append, ha, List.append_nil]
    exact h.once
  · rw [arrivals_append, ha, List.append_nil]
    exact h.still_marked hs
  · have hw := h.waits I T (mem_waiting.mp (hQ ▸ mem_waiting.mpr hm))
    exact hw.stays hs (hr.keeps h.invariant) fun hall => Or.inl (hq I hw.lt hall)

theorem Exact.plain (h : Exact log B) (hr : Runs B B') (hp : Plain B B')
    (hQ : waiting B'.Q = waiting B.Q) (ha : arrivals es = []) (hd : departures es = []) :
    Exact (log ++ es) B' :=
  h.quiet hr (hp.tracked h.tracked) hp.settled hQ ha hd fun _ _ => hp.waits

/-- A patch message is accepted. -/
theorem Exact.accept {I : Nat} {T : Template} {J : Instr} (h : Exact log B) (hr : Runs B B') (hI : I < B.count)
    (hp : (B.Is I).patch = false) (hJ : SameMarks (B.Is I) J) (hJp : J.patch = true)
    (hJT : J.T = some (.user T)) (he : enqueue (B.setInstr I J) I T = .ok B') :
    Exact (log ++ [.accepted I T]) B' := by
  obtain ⟨hs, hQ, hB'⟩ := enqueue_restates hJ he
  have hsettled := enqueue_settled hJ hp he
  have hself : B'.Is I = J := by
    rw [hB']
    simp [setInstr]
  have hnew : ∀ x ∈ arrivals log, x.1 ≠ I := by
    rintro x hx rfl
    rw [(h.marked x hx).2] at hp
    cases hp
  have harr : arrivals [Event.accepted I T] = [(I, T)] := rfl
  have hdep : departures [Event.accepted I T] = [] := rfl
  refine ⟨hr.invariant h.invariant, hs.tracked h.tracked hI (by decide) (Or.inr rfl), ?_, ?_, fun x hx => ?_,
    fun K U hm => ?_⟩
  · rw [arrivals_append, departures_append, harr, hdep, h.order, hQ, List.append_nil, List.append_assoc]
    congr 1
    simp [waiting, PatchEntry.instr]
  · rw [arrivals_append, harr, List.map_append, List.nodup_append]
    refine ⟨h.once, List.nodup_singleton _, fun a ha b hb => ?_⟩
    obtain ⟨x, hx, rfl⟩ := List.mem_map.mp ha
    obtain rfl : b = I := by simpa using hb
    exact hnew x hx
  · rw [arrivals_append, harr, List.mem_append, List.mem_singleton] at hx
    rcases hx with hx | rfl
    · exact h.still_marked hsettled x hx
    · exact ⟨Nat.lt_of_lt_of_le hI hsettled.count, by rw [hself, hJp]⟩
  · rw [hQ, List.mem_append, List.mem_singleton] at hm
    rcases hm with hm | hm
    · have hw := h.waits K U hm
      have hKI : K ≠ I := by
        rintro rfl
        rw [hw.patch] at hp
        cases hp
      refine hw.stays hsettled (hr.keeps h.invariant) fun hall => Or.inl fun i hi => ?_
      rw [(hs.Is K).size] at hi
      rw [hs.other h.tracked hI hw.lt hKI hi]
      exact hall i hi
    · cases hm
      refine ⟨Nat.lt_of_lt_of_le hI hsettled.count, by rw [hself, hJp], by rw [hself, hJT], Or.inl fun i hi => ?_⟩
      rw [(hs.Is I).size] at hi
      exact hs.own hi

/-- The first entry leaves, for a patch. -/
theorem Exact.leave {I : Nat} {T : Template} {Q : List PatchEntry} {C : Binary} (h : Exact log B)
    (hr : Runs B { C with Q := Q }) (hQ : B.Q = .patch I T :: Q) (he : flushEntryLog B (.patch I T) = .ok (C, es)) :
    Exact (log ++ es) { C with Q := Q } := by
  have hi := h.invariant
  have hw := hi.wellFormed
  have hI : I < B.count := hi.queue I T (by rw [hQ]; simp)
  have hsettled : Settled B { C with Q := Q } :=
    (flushEntryLog_settled hi (by rw [hQ]; simp) he).trans (.of_eq rfl rfl)
  -- the other entries are for other instructions
  have hothers : ∀ K U, PatchEntry.patch K U ∈ Q → K ≠ I := by
    rintro K U hm rfl
    have honce := h.once
    rw [h.order, hQ, List.map_append, List.nodup_append] at honce
    have hwait : waiting (PatchEntry.patch K T :: Q) = (K, T) :: waiting Q := rfl
    rw [hwait, List.map_cons, List.nodup_cons] at honce
    exact honce.2.1.1 (List.mem_map.mpr ⟨(K, U), mem_waiting.mpr hm, rfl⟩)
  have hstate : Tracked C ∧ departures es = [(I, T)] ∧ arrivals es = [] ∧
      ∀ K < B.count, K ≠ I → AllQueued B K → AllQueued C K ∨ Batched C K := by
    rcases flushEntryLog_patch he with ⟨-, D, o, hD, hpatch, rfl⟩ | ⟨-, rfl, rfl⟩
    · obtain ⟨hs, -, -⟩ := unqueue_restates hD
      have htD := hs.tracked h.tracked hI (by decide) (Or.inl rfl)
      have hwD := ((Step.dequeue I hI hD).ok hw).wellFormed
      have hID : I < D.count := by rwa [hs.count]
      refine ⟨?_, rfl, rfl, fun K hK hne hall => ?_⟩
      · rcases patch_touches hwD htD hID hpatch with ⟨-, hu⟩ | ⟨-, htr | ⟨-, R, htr, -⟩⟩
        · exact htD.of_unchanged hu
        · exact htr.tracked
        · exact htr.tracked
      · refine patch_waits hwD htD hID hpatch (by rwa [hs.count]) fun i hi => ?_
        rw [(hs.Is K).size] at hi
        rw [hs.other h.tracked hI hK hne hi]
        exact hall i hi
    · exact ⟨h.tracked, rfl, rfl, fun K _ _ hall => Or.inl hall⟩
  obtain ⟨htC, hdep, harr, hq⟩ := hstate
  refine ⟨hr.invariant hi, (show Plain C { C with Q := Q } from ⟨rfl, rfl, rfl, rfl, rfl⟩).tracked htC, ?_, ?_,
    ?_, fun K U hm => ?_⟩
  · rw [arrivals_append, departures_append, harr, hdep, List.append_nil, h.order, hQ, List.append_assoc]
    rfl
  · rw [arrivals_append, harr, List.append_nil]
    exact h.once
  · rw [arrivals_append, harr, List.append_nil]
    exact h.still_marked hsettled
  · have hwait := h.waits K U (by rw [hQ]; exact List.mem_cons_of_mem _ hm)
    exact hwait.stays hsettled (hr.keeps hi) (hq K hwait.lt (hothers K U hm))

theorem Action.exact {G : Binary → Prop} (h : Exact log B) (ha : Action G B es B') : Exact (log ++ es) B' := by
  have hi := h.invariant
  have hr := ha.runs hi
  have hs := ha.settled hi
  cases ha with
  | instruction address length offset ha =>
      obtain ⟨hc, hB'⟩ := instruction_claims ha
      refine h.quiet hr (hc.tracked h.tracked (hr.invariant hi).wellFormed) hs (by rw [hB']) rfl rfl
        fun k hk hall i hki => ?_
      rw [hc.Is k (by omega)] at hki
      rw [hc.older h.tracked hk hki]
      exact hall i hki
  | reserve absolute address bytes length ha =>
      refine h.plain hr (parseReserve_plain hi.wellFormed.allocates ha) ?_ rfl rfl
      rw [(parseReserve_only hi.wellFormed.allocates ha).2]
  | trampoline name template ha =>
      refine h.plain hr (parseTrampoline_plain ha) ?_ rfl rfl
      rw [parseTrampoline_only ha]
  | accept I T metadata hI hp ha => exact h.accept hr hI hp (by exact ⟨rfl, rfl, rfl, rfl, rfl⟩) rfl rfl ha
  | options options analysis hc hG =>
      refine h.plain hr (applyOptions_plain B options analysis) ?_ rfl rfl
      rw [(applyOptions_same B options analysis).eq]
  | postpone options analysis hc =>
      refine h.plain hr ⟨rfl, rfl, rfl, rfl, rfl⟩ ?_ rfl rfl
      simp [waiting, PatchEntry.instr]
  | entrySet =>
      refine h.plain hr (buildEntrySet_plain B) ?_ rfl rfl
      obtain ⟨Es, hEs⟩ := buildEntrySet_frame B
      rw [hEs]
  | cursor cursor hc => exact h.plain hr ⟨rfl, rfl, rfl, rfl, rfl⟩ rfl rfl rfl
  | @leave C log' entry Q hQ ha =>
      cases entry with
      | options options analysis =>
          cases ha
          have hp := applyOptions_plain B options analysis
          refine h.plain hr ⟨hp.bytes, hp.state, hp.Is, hp.count, hp.original⟩ ?_ rfl rfl
          rw [hQ]
          rfl
      | patch I T => exact h.leave hr hQ ha

theorem Actions.exact {G : Binary → Prop} {log' : List Event} (h : Exact log B) (ha : Actions G B log' B') :
    Exact (log ++ log') B' := by
  induction ha with
  | refl =>
      rw [List.append_nil]
      exact h
  | tail _ hs ih =>
      rw [← List.append_assoc]
      exact hs.exact ih

theorem Fresh.exact (h : Fresh B) (hi : Invariant B) : Exact [] B := by
  refine ⟨hi, h.tracked, ?_, List.nodup_nil, fun x hx => (List.not_mem_nil hx).elim, fun I T hm => ?_⟩
  · rw [h.Q]
    rfl
  · rw [h.Q] at hm
    cases hm

end

/-! ### The flush before emission -/

section
variable {B B' : Binary} {log : List Event}

/-- A flush accepts no message. -/
theorem flushEntryLog_leaves {entry : PatchEntry} {r : Binary × List Event}
    (h : flushEntryLog B entry = .ok r) : ∀ e ∈ r.2, e.arrival = none ∧ e.message = none := by
  intro e he
  cases entry with
  | options options analysis =>
      cases h
      rw [List.mem_singleton.mp he]
      exact ⟨rfl, rfl⟩
  | patch I T =>
      rcases flushEntryLog_patch h with ⟨-, C, o, -, -, hlog⟩ | ⟨-, -, hlog⟩
      · rw [hlog] at he
        rw [List.mem_singleton.mp he]
        exact ⟨rfl, rfl⟩
      · rw [hlog] at he
        rw [List.mem_singleton.mp he]
        exact ⟨rfl, rfl⟩

theorem flushLoopLog_leaves {cursor : Int} {Q : List PatchEntry} {r : Binary × List Event}
    (h : flushLoopLog cursor Q B = .ok r) : ∀ e ∈ r.2, e.arrival = none ∧ e.message = none := by
  induction Q generalizing B r with
  | nil =>
      cases h
      exact fun e he => by cases he
  | cons entry Q ih =>
      unfold flushLoopLog at h
      split at h
      · obtain ⟨s, hs, h⟩ := bind_ok.mp h
        obtain ⟨u, hu, h⟩ := bind_ok.mp h
        cases h
        exact fun e he => (List.mem_append.mp he).elim (flushEntryLog_leaves hs e) (ih hu e)
      · cases h
        exact fun e he => by cases he

theorem queueFlushLog_leaves {cursor : Int} {r : Binary × List Event}
    (h : queueFlushLog B cursor = .ok r) : arrivals r.2 = [] ∧ sent r.2 = [] := by
  obtain ⟨_, -, h⟩ := bind_ok.mp h
  have hleaves := flushLoopLog_leaves h
  exact ⟨List.filterMap_eq_nil_iff.mpr fun e he => (hleaves e he).1,
    List.filterMap_eq_nil_iff.mpr fun e he => (hleaves e he).2⟩

/-- A message is an arrival exactly if it is a patch message. -/
theorem parseMessageLog_arrivals {m : Message} {r : Binary × List Event} (h : parseMessageLog B m = .ok r) :
    (arrivals r.2).length = if m.isPatch then 1 else 0 := by
  cases m with
  | patch trampoline offset metadata =>
      obtain ⟨I, T, C, -, ⟨-, rfl⟩ | ⟨-, s, hs, rfl⟩⟩ := parsePatchLog_cases (G := fun _ => True) h
      · rfl
      · show (arrivals ([Event.accepted I T] ++ s.2)).length = 1
        rw [arrivals_append, (queueFlushLog_leaves hs).1]
        rfl
  | options argv =>
      obtain ⟨o, -, h⟩ := bind_ok.mp h
      obtain ⟨_, -, h⟩ := bind_ok.mp h
      cases h
      split <;> rfl
  | instruction address length offset =>
      obtain ⟨C, -, rfl⟩ := map_ok.mp h
      rfl
  | reserve absolute address bytes length =>
      obtain ⟨C, -, rfl⟩ := map_ok.mp h
      rfl
  | trampoline name template =>
      obtain ⟨C, -, rfl⟩ := map_ok.mp h
      rfl

theorem serveLog_arrivals {ms : List Message} {r : Binary × List Event} (h : serveLog B ms = .ok r) :
    (arrivals r.2).length = ms.countP Message.isPatch := by
  induction ms generalizing B r with
  | nil =>
      cases h
      rfl
  | cons m ms ih =>
      obtain ⟨s, hs, h⟩ := bind_ok.mp h
      obtain ⟨u, hu, h⟩ := bind_ok.mp h
      cases h
      rw [arrivals_append, List.length_append, parseMessageLog_arrivals hs, ih hu, List.countP_cons]
      omega

/-- A flush up to a cursor below all of the queue empties it. -/
theorem flushLoopLog_empties {cursor : Int} {Q : List PatchEntry} {r : Binary × List Event} (hi : Invariant B)
    (hQ : B.Q = Q) (hdue : ∀ I T, PatchEntry.patch I T ∈ Q → (B.Is I).addr > cursor)
    (h : flushLoopLog cursor Q B = .ok r) : r.1.Q = [] := by
  induction Q generalizing B r with
  | nil =>
      cases h
      rfl
  | cons entry Q ih =>
      have hentry : due B cursor entry = true := by
        cases entry with
        | options options analysis => rfl
        | patch I T => exact decide_eq_true (hdue I T (by simp))
      unfold flushLoopLog at h
      rw [← hQ, if_pos hentry] at h
      obtain ⟨s, hs, h⟩ := bind_ok.mp h
      obtain ⟨u, hu, h⟩ := bind_ok.mp h
      cases h
      have haction : Action (fun _ => True) B s.2 { s.1 with Q := Q } := .leave entry Q hQ hs
      refine ih (r := u) ((haction.runs hi).invariant hi) rfl (fun I T hm => ?_) hu
      have hI : I < B.count := hi.queue I T (by rw [hQ]; exact List.mem_cons_of_mem _ hm)
      rw [((haction.settled hi).place I hI).2.2]
      exact hdue I T (List.mem_cons_of_mem _ hm)

end

/-- **The queue is exact.** In every state of a run, the entries that arrived are those that left, in the
order of arrival, and those that wait; no instruction arrives twice. The first entry is either queued with
all of its bytes, so that the assertion of the flush holds and `patch` is called, or its instruction is in
the trampoline of a batch, which instantiates its template. If all patched instructions are more than the
look-ahead above the bottom of the address space, the queue is empty after the flush before emission, and
each patch message is counted as patched or as failed. -/
theorem queue_exact {file : File} {mode : Mode} {options : Options} {analysis : Option (Nat → Bool)}
    {B₀ : Binary} (h₀ : parseBinary file mode options analysis = .ok B₀) :
    (∀ log B, Actions (fun _ => True) B₀ log B →
      arrivals log = departures log ++ waiting B.Q ∧ ((arrivals log).map (·.1)).Nodup ∧
      ∀ I T Q, B.Q = .patch I T :: Q →
        (B.STATE I 0 = STATE_QUEUED → AllQueued B I ∧ ∃ C, unqueue I B = .ok C) ∧
        (B.STATE I 0 ≠ STATE_QUEUED → Consumed B I T)) ∧
    ∀ ms B log, emitLog B₀ ms = .ok (B, log) →
      (∀ I T, (I, T) ∈ arrivals log → INTPTR_MIN + lookahead < (B.Is I).addr) →
      B.Q = [] ∧ departures log = arrivals log ∧
        num_patched log + num_failed log = ms.countP Message.isPatch := by
  have hi₀ := parseBinary_invariant h₀
  have hexact : ∀ {log B}, Actions (fun _ => True) B₀ log B → Exact log B := fun h =>
    by simpa using h.exact ((parseBinary_fresh h₀).exact hi₀)
  refine ⟨fun log B h => ?_, fun ms B log h hcond => ?_⟩
  · have hB := hexact h
    have hw := hB.invariant.wellFormed
    refine ⟨hB.order, hB.once, fun I T Q hQ => ?_⟩
    have hwait := hB.waits I T (by rw [hQ]; simp)
    refine ⟨fun hq => ?_, hwait.consumed hw⟩
    have hall := hwait.all_queued hw hB.tracked hq
    exact ⟨hall, unqueue_total hall⟩
  · have hB := hexact (emitLog_actions (inTime_true B₀ ms) h)
    obtain ⟨s, hs, h⟩ := bind_ok.mp h
    obtain ⟨u, hu, h⟩ := bind_ok.mp h
    cases h
    have hserved := hexact (serveLog_actions (inTime_true B₀ ms) hs)
    have hempty : u.1.Q = [] := by
      obtain ⟨_, hc, hu⟩ := bind_ok.mp hu
      rw [failIf_ok] at hc
      have hstart : Actions (fun _ => True) s.1 [] { buildEntrySet s.1 with cursor := INTPTR_MIN } :=
        Actions.one .entrySet (.single (.cursor INTPTR_MIN (by omega)))
      have hi := (hstart.runs hserved.invariant).invariant hserved.invariant
      have hend : Actions (fun _ => True) { buildEntrySet s.1 with cursor := INTPTR_MIN } u.2 u.1 :=
        flushLoopLog_actions rfl hu
      refine flushLoopLog_empties hi rfl (fun I T hm => ?_) hu
      have hQ : (buildEntrySet s.1).Q = s.1.Q := by
        obtain ⟨Es, hEs⟩ := buildEntrySet_frame s.1
        rw [hEs]
      have harr : (I, T) ∈ arrivals (s.2 ++ u.2) := by
        rw [arrivals_append, hserved.order]
        refine List.mem_append_left _ (List.mem_append_right _ (mem_waiting.mpr ?_))
        rwa [← hQ]
      have haddr := ((hend.settled hi).place I (hi.queue I T hm)).2.2
      have := hcond I T harr
      rw [haddr] at this
      exact this
    refine ⟨hempty, ?_, ?_⟩
    · rw [hB.order, hempty]
      exact (List.append_nil _).symm
    · have horder := hB.order
      rw [hempty] at horder
      rw [num_departures, ← serveLog_arrivals hs]
      have hnone : arrivals u.2 = [] := (queueFlushLog_leaves hu).1
      rw [arrivals_append, hnone, List.append_nil] at horder
      rw [horder, waiting, List.filterMap_nil, List.append_nil]

/-! ### Sample streams -/

def sampleStream : List Message :=
  [.instruction [0x400007] [1] [7], .instruction [0x400006] [1] [6], .instruction [0x400004] [2] [4],
    .instruction [0x400001] [3] [1], .patch [sampleTemplate] [4] [], .patch [sampleTemplate] [1] []]

/-- An instruction close to the bottom of the address space. -/
def bottomStream : List Message :=
  [.instruction [INTPTR_MIN + 256] [1] [4], .patch [sampleTemplate] [4] []]

/-- Both entries of the sample leave, and both are patched. -/
theorem sample_exact : ∃ B₀ B log, parseBinary sampleFile .ELF_EXE defaultOptions none = .ok B₀ ∧
    emitLog B₀ sampleStream = .ok (B, log) ∧ B.Q = [] ∧ departures log = arrivals log ∧
    num_patched log + num_failed log = 2 := by
  obtain ⟨B₀, B, log, h₀, h, hr⟩ := streamResult_ok sampleFile defaultOptions sampleStream
    (by decide +kernel)
  have haddr : (streamResult sampleFile defaultOptions sampleStream).toOption.map (fun r =>
      (arrivals r.2).all fun x => decide (INTPTR_MIN + lookahead < (r.1.Is x.1).addr)) = some true := by
    decide +kernel
  rw [hr] at haddr
  have hall := List.all_eq_true.mp (Option.some.inj haddr)
  have hexact := (queue_exact h₀).2 sampleStream B log h fun I T hm => of_decide_eq_true (hall (I, T) hm)
  exact ⟨B₀, B, log, h₀, h, hexact⟩

/-- The entry never leaves: it is not further above the bottom than the look-ahead. -/
theorem bottom_is_left : ∃ B₀ B log, parseBinary sampleFile .ELF_EXE defaultOptions none = .ok B₀ ∧
    emitLog B₀ bottomStream = .ok (B, log) ∧ B.Q ≠ [] ∧ departures log ≠ arrivals log ∧
    num_patched log + num_failed log ≠ bottomStream.countP Message.isPatch := by
  obtain ⟨B₀, B, log, h₀, h, hr⟩ := streamResult_ok sampleFile defaultOptions bottomStream
    (by decide +kernel)
  have hlengths : (streamResult sampleFile defaultOptions bottomStream).toOption.map (fun r =>
      (r.1.Q.length, (departures r.2).length, (arrivals r.2).length, num_patched r.2 + num_failed r.2)) =
        some (1, 0, 1, 0) := by
    decide +kernel
  rw [hr] at hlengths
  obtain ⟨hQ, hd, ha, hn⟩ : B.Q.length = 1 ∧ (departures log).length = 0 ∧ (arrivals log).length = 1 ∧
      num_patched log + num_failed log = 0 := by simpa only [Prod.mk.injEq] using Option.some.inj hlengths
  refine ⟨B₀, B, log, h₀, h, fun he => ?_, fun he => ?_, ?_⟩
  · rw [he] at hQ
    cases hQ
  · rw [he, ha] at hd
    cases hd
  · rw [hn]
    decide

end E9Patch
