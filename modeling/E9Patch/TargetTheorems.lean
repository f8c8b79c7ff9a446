import E9Patch.Peephole
import E9Patch.QueueRun

/-!
Without T0, every instruction stays a valid target of jumps that nobody has looked for. What was neither
patched nor evicted has its original bytes, what was evicted is a jump to its own evictee trampoline, and
what is not known to be an instruction is left alone. The optimization of jumps before emission gives
direct jumps another displacement.
-/

namespace E9Patch
open Bytes Binary Fallible

/-- What holds between the actions of a run without T0. -/
structure Intact (log : List Event) (B : Binary) : Prop where
  invariant : Invariant B
  tracked : Tracked B
  bytes : ∀ k < B.count, (B.Is k).is_patched = false → ∀ i < (B.Is k).size,
    B.PATCH k i = B.original ((B.Is k).offset + i)
  unknown : ∀ q, (B.state q).kind = .UNKNOWN → B.bytes q = B.original q
  cause : ∀ k < B.count, (B.Is k).is_patched = true →
    (∃ T options, Event.patched k T options true ∈ log) ∨ (B.Is k).is_evicted = true
  evicted : ∀ k < B.count, (B.Is k).is_evicted = true → Redirects B k evicteeTrampoline
  options : B.options.option_tactic_T0 = false

section
variable {B B' C : Binary} {log es : List Event} {I : Nat}

/-- A jump to a trampoline stays if cells only evolve and allocations are kept. -/
theorem Redirects.stays {k : Nat} {T : Trampoline} (h : Redirects B k T) (he : Evolves B B')
    (hk : KeepsAllocations B.allocator B'.allocator) (hoff : (B'.Is k).offset = (B.Is k).offset)
    (haddr : (B'.Is k).addr = (B.Is k).addr) : Redirects B' k T := by
  obtain ⟨A, pre, hl, hI, hT, hpre, hb, hj⟩ := h
  obtain ⟨hl', ha⟩ := hk.live hl
  have halloc : B'.alloc A = B.alloc A := ha
  have hentry : B'.entry A = B.entry A := by rw [entry, entry, halloc]
  refine ⟨A, pre, hl', by rw [halloc, hI], by rw [halloc, hT], hpre, fun i hi => ?_, ?_⟩
  · rw [PATCH, STATE, hoff]
    have := (he _).guarded (hb i hi).2
    exact ⟨this.1.trans (hb i hi).1, this.2⟩
  · rw [hentry]
    exact hj.evolves he hoff haddr

/-- What was patched stays in a longer log. -/
theorem patched_append {k : Nat} (es : List Event) (h : ∃ T options, Event.patched k T options true ∈ log) :
    ∃ T options, Event.patched k T options true ∈ log ++ es :=
  h.imp fun _ h => h.imp fun _ hm => List.mem_append_left _ hm

theorem Intact.plain (h : Intact log B) (hp : Plain B B') (hr : Runs B B')
    (hopt : B'.options.option_tactic_T0 = false) : Intact (log ++ es) B' := by
  refine ⟨hr.invariant h.invariant, hp.tracked h.tracked, fun k hk hkp i hi => ?_, fun q hq => ?_,
    fun k hk hkp => ?_, fun k hk hev => ?_, hopt⟩
  · rw [hp.Is] at hkp hi
    rw [PATCH, hp.Is, hp.bytes, hp.original]
    exact h.bytes k (hp.count ▸ hk) hkp i hi
  · rw [hp.state] at hq
    rw [hp.bytes, hp.original]
    exact h.unknown q hq
  · rw [hp.Is] at hkp ⊢
    exact (h.cause k (hp.count ▸ hk) hkp).imp (patched_append es) id
  · rw [hp.Is] at hev
    exact (h.evicted k (hp.count ▸ hk) hev).stays (hr.evolves h.invariant) (hr.keeps h.invariant)
      (by rw [hp.Is]) (by rw [hp.Is])

theorem Intact.restated {s s' : ByteState} (h : Intact log B) (hs : Restated I s s' B B') (hr : Runs B B')
    (ht : Tracked B') (hopt : B'.options.option_tactic_T0 = false) (hs' : s'.kind ≠ .UNKNOWN) :
    Intact (log ++ es) B' := by
  refine ⟨hr.invariant h.invariant, ht, fun k hk hkp i hi => ?_, fun q hq => ?_, fun k hk hkp => ?_,
    fun k hk hev => ?_, hopt⟩
  · rw [(hs.Is k).is_patched] at hkp
    rw [(hs.Is k).size] at hi
    rw [PATCH, (hs.Is k).offset, hs.bytes, hs.original]
    exact h.bytes k (hs.count ▸ hk) hkp i hi
  · rw [hs.bytes, hs.original]
    by_cases hin : B.Inside I q
    · rw [hs.inside q hin] at hq
      exact absurd hq hs'
    · rw [hs.outside q hin] at hq
      exact h.unknown q hq
  · rw [(hs.Is k).is_patched] at hkp
    rw [(hs.Is k).is_evicted]
    exact (h.cause k (hs.count ▸ hk) hkp).imp (patched_append es) id
  · rw [(hs.Is k).is_evicted] at hev
    exact (h.evicted k (hs.count ▸ hk) hev).stays (hr.evolves h.invariant) (hr.keeps h.invariant)
      (hs.Is k).offset (hs.Is k).addr

theorem Intact.claimed (h : Intact log B) (hc : Claimed B B') (hr : Runs B B')
    (hopt : B'.options.option_tactic_T0 = false) : Intact (log ++ es) B' := by
  have hi := hr.invariant h.invariant
  have hcases : ∀ k < B'.count, k = B.count ∨ (k ≠ B.count ∧ k < B.count) := fun k hk => by
    rw [hc.count] at hk
    omega
  refine ⟨hi, hc.tracked h.tracked hi.wellFormed, fun k hk hkp i hki => ?_, fun q hq => ?_,
    fun k hk hkp => ?_, fun k hk hev => ?_, hopt⟩
  · rw [PATCH, hc.bytes, hc.original]
    rcases hcases k hk with rfl | ⟨hne, hlt⟩
    · refine h.unknown _ ?_
      rw [(hc.inside _ ⟨by omega, by omega⟩).1]
      rfl
    · rw [hc.Is k hne] at hkp hki ⊢
      exact h.bytes k hlt hkp i hki
  · rw [hc.bytes, hc.original]
    by_cases hin : B'.Inside B.count q
    · rw [(hc.inside q hin).2] at hq
      cases hq
    · rw [hc.outside q hin] at hq
      exact h.unknown q hq
  · rcases hcases k hk with rfl | ⟨hne, hlt⟩
    · rw [hc.new.1] at hkp
      cases hkp
    · rw [hc.Is k hne] at hkp ⊢
      exact (h.cause k hlt hkp).imp (patched_append es) id
  · rcases hcases k hk with rfl | ⟨hne, hlt⟩
    · rw [hc.new.2] at hev
      cases hev
    · rw [hc.Is k hne] at hev
      exact (h.evicted k hlt hev).stays (hr.evolves h.invariant) (hr.keeps h.invariant)
        (by rw [hc.Is k hne]) (by rw [hc.Is k hne])

/-- What a success leaves of the bytes that it must not touch. -/
theorem Tracks.bytes {S R : Nat → Prop} (h : Tracks S R B B') {k : Nat} (hk : k < B.count)
    (hp : (B'.Is k).is_patched = false) {i : Nat} (hi : i < (B.Is k).size) : B'.PATCH k i = B.PATCH k i := by
  rw [PATCH, (h.place k).1]
  exact (h.spared k hk hp i hi).kind.1

/-- The call of `patch`. Without T0, what is patched now and was not before is the instruction itself, or
evicted. -/
theorem Intact.patch {T : Template} {o : Option Tactic} {options : Options} (h : Intact log B)
    (hI : I < B.count) (hr : Binary.patch I (.user T) B = .ok (B', o)) :
    Intact (log ++ [.patched I T options o.isSome]) B' := by
  have hw := h.invariant.wellFormed
  have hruns : Runs B B' := .single (.patch I T hI hr)
  have hi := hruns.invariant h.invariant
  have hmem : ∀ {k : Nat}, (∃ T options, Event.patched k T options true ∈ log) →
      ∃ U options', Event.patched k U options' true ∈ log ++ [.patched I T options o.isSome] :=
    fun ⟨U, o, hm⟩ => ⟨U, o, List.mem_append_left _ hm⟩
  rcases patch_touches hw h.tracked hI hr with ⟨rfl, hu⟩ | ⟨hne, htouch⟩
  · have ht := h.tracked.of_unchanged hu
    have hp := hu.progress
    obtain ⟨t, rfl, -⟩ := hu
    refine ⟨hi, ht, h.bytes, h.unknown, fun k hk hkp => ?_, fun k hk hev => ?_, h.options⟩
    · exact (h.cause k hk hkp).imp hmem id
    · exact (h.evicted k hk hev).progress hp
  · have htracks : Patching I B B' := by
      rcases htouch with hp | ⟨hT0, -⟩
      · exact hp
      · rw [h.options] at hT0
        cases hT0
    rcases patch_spec hw hI hr with ⟨hnone, -⟩ | ⟨C, P, Ps, -, hs, rfl⟩
    · exact absurd hnone hne
    obtain ⟨Es, Traps, hC⟩ := commit_frame C (P :: Ps)
    have horiginal : (C.commit (P :: Ps)).original = B.original := by
      rw [hC, hs.progress.rest]
    have hoptions : (C.commit (P :: Ps)).options = B.options := by
      rw [hC, hs.progress.rest]
    refine ⟨hi, htracks.tracked, fun k hk hkp i hki => ?_, fun q hq => ?_, fun k hk hkp => ?_,
      fun k hk hev => ?_, by rw [hoptions, h.options]⟩
    · rw [(htracks.place k).2] at hki
      have hk' : k < B.count := htracks.count ▸ hk
      rw [htracks.bytes hk' hkp hki, (htracks.place k).1, horiginal]
      exact h.bytes k hk' (htracks.unpatched hk' hkp) i hki
    · rw [horiginal]
      have hold := htracks.known q hq
      rw [show (C.commit (P :: Ps)).bytes q = B.bytes q from (htracks.unknown q hold).kind.1]
      exact h.unknown q hold
    · have hk' : k < B.count := htracks.count ▸ hk
      rcases htracks.only k hk' hkp with hp | rfl | hev
      · rcases h.cause k hk' hp with hm | hev
        · exact Or.inl (hmem hm)
        · exact Or.inr (htracks.evicted k hk' hev)
      · refine Or.inl ⟨T, options, List.mem_append_right _ ?_⟩
        rw [show o.isSome = true from Option.isSome_iff_ne_none.mpr hne]
        exact List.mem_singleton.mpr rfl
      · exact Or.inr hev
    · have hk' : k < B.count := htracks.count ▸ hk
      have hCk : (C.Is k).is_evicted = true := by
        rw [hC] at hev
        exact hev
      have hred : Redirects C k evicteeTrampoline := by
        rcases hs.evicts k hk' hCk with hold | ⟨-, hnew⟩
        · exact (h.evicted k hk' hold).progress hs.progress
        · exact hnew
      rw [hC]
      exact hred.stays (.of_eq rfl) (.of_eq hs.progress.allocates rfl) rfl rfl

theorem targetAnalysis_T0 (B : Binary) (analysis : Option (Nat → Bool)) :
    (targetAnalysis B analysis).options.option_tactic_T0 = B.options.option_tactic_T0 := by
  unfold targetAnalysis
  split
  · rfl
  · split <;> rfl

theorem applyOptions_T0 (B : Binary) (options : Options) (analysis : Option (Nat → Bool)) :
    (applyOptions B options analysis).options.option_tactic_T0 = options.option_tactic_T0 := by
  unfold applyOptions
  simp only
  rw [targetAnalysis_T0]
  split <;> rfl

/-- Every action keeps what holds without T0, if it does not turn T0 on. -/
theorem Action.intact {G : Binary → Prop} (h : Intact log B) (ha : Action G B es B')
    (hes : ∀ options analysis, Event.applied options analysis ∈ es → options.option_tactic_T0 = false) :
    Intact (log ++ es) B' := by
  have hi := h.invariant
  have hw := hi.wellFormed
  have hr := ha.runs hi
  cases ha with
  | instruction address length offset ha =>
      obtain ⟨hc, hB'⟩ := instruction_claims ha
      exact h.claimed hc hr (by rw [hB']; exact h.options)
  | reserve absolute address bytes length ha =>
      refine h.plain (parseReserve_plain hw.allocates ha) hr ?_
      rw [(parseReserve_only hw.allocates ha).2]
      exact h.options
  | trampoline name template ha =>
      refine h.plain (parseTrampoline_plain ha) hr ?_
      rw [parseTrampoline_only ha]
      exact h.options
  | accept I T metadata hI hp ha =>
      obtain ⟨hs, -, hB'⟩ := enqueue_restates (by exact ⟨rfl, rfl, rfl, rfl, rfl⟩) ha
      refine h.restated hs hr (hs.tracked h.tracked hI (by decide) (Or.inr rfl)) ?_ (by decide)
      rw [hB']
      exact h.options
  | options options analysis hc hG =>
      refine h.plain (applyOptions_plain B options analysis) hr ?_
      rw [applyOptions_T0]
      exact hes options analysis (by simp)
  | postpone options analysis hc => exact h.plain ⟨rfl, rfl, rfl, rfl, rfl⟩ hr h.options
  | entrySet =>
      refine h.plain (buildEntrySet_plain B) hr ?_
      obtain ⟨Es, hEs⟩ := buildEntrySet_frame B
      rw [hEs]
      exact h.options
  | cursor cursor hc => exact h.plain ⟨rfl, rfl, rfl, rfl, rfl⟩ hr h.options
  | @leave C log' entry Q hQ ha =>
      -- the entry, and then the queue without it
      suffices hC : Intact (log ++ es) C by
        have hpop : Runs C { C with Q := Q } := .single (.pop Q ?_)
        · have hplain : Plain C { C with Q := Q } := ⟨rfl, rfl, rfl, rfl, rfl⟩
          have hkept : Intact (log ++ es ++ []) { C with Q := Q } := hC.plain hplain hpop hC.options
          rwa [List.append_nil] at hkept
        · have hfst := flushEntryLog_fst B entry
          rw [ha] at hfst
          rw [(flushEntry_runs hi (by rw [hQ]; simp) hfst.symm).2, hQ]
          exact List.subset_cons_self _ _
      cases entry with
      | options options analysis =>
          cases ha
          refine h.plain (applyOptions_plain B options analysis) (.single (.options options analysis)) ?_
          rw [applyOptions_T0]
          exact hes options analysis (by simp)
      | patch I T =>
          rcases flushEntryLog_patch ha with ⟨-, D, o, hD, hpatch, rfl⟩ | ⟨-, rfl, rfl⟩
          · have hI : I < B.count := hi.queue I T (by rw [hQ]; simp)
            obtain ⟨hs, hB', -⟩ := unqueue_restates hD
            have hinv : Intact (log ++ []) D := h.restated hs (.single (.dequeue I hI hD))
              (hs.tracked h.tracked hI (by decide) (Or.inl rfl)) (by rw [hB']; exact h.options) (by decide)
            rw [List.append_nil] at hinv
            exact hinv.patch (by rwa [hs.count]) hpatch
          · exact h.plain ⟨rfl, rfl, rfl, rfl, rfl⟩ .refl h.options

theorem Actions.intact {G : Binary → Prop} {log' : List Event} (h : Intact log B) (ha : Actions G B log' B')
    (hlog : ∀ options analysis, Event.applied options analysis ∈ log' → options.option_tactic_T0 = false) :
    Intact (log ++ log') B' := by
  induction ha with
  | refl =>
      rw [List.append_nil]
      exact h
  | tail _ hs ih =>
      rw [← List.append_assoc]
      exact hs.intact (ih fun o a hm => hlog o a (List.mem_append_left _ hm)) fun o a hm =>
        hlog o a (List.mem_append_right _ hm)

end

/-- No action writes to a byte that is not known. -/
theorem Action.unknown_byte {G : Binary → Prop} {B B' : Binary} {es : List Event} (hi : Invariant B)
    (ht : Tracked B) (ha : Action G B es B') {q : Nat} (hq : (B.state q).kind = .UNKNOWN) :
    B'.bytes q = B.bytes q := by
  have hw := hi.wellFormed
  cases ha with
  | instruction address length offset ha => rw [(instruction_claims ha).1.bytes]
  | reserve absolute address bytes length ha => rw [(parseReserve_plain hw.allocates ha).bytes]
  | trampoline name template ha => rw [(parseTrampoline_plain ha).bytes]
  | accept I T metadata hI hp ha => rw [(enqueue_restates (by exact ⟨rfl, rfl, rfl, rfl, rfl⟩) ha).1.bytes]
  | options options analysis hc hG => rw [(applyOptions_plain B options analysis).bytes]
  | postpone options analysis hc => rfl
  | entrySet => rw [(buildEntrySet_plain B).bytes]
  | cursor cursor hc => rfl
  | @leave C log' entry Q hQ ha =>
      show C.bytes q = B.bytes q
      cases entry with
      | options options analysis =>
          cases ha
          rw [(applyOptions_plain B options analysis).bytes]
      | patch I T =>
          rcases flushEntryLog_patch ha with ⟨-, D, o, hD, hpatch, -⟩ | ⟨-, rfl, -⟩
          · have hI : I < B.count := hi.queue I T (by rw [hQ]; simp)
            obtain ⟨hs, -, -⟩ := unqueue_restates hD
            have htD := hs.tracked ht hI (by decide) (Or.inl rfl)
            have hwD := ((Step.dequeue I hI hD).ok hw).wellFormed
            have hqD : (D.state q).kind = .UNKNOWN := by
              rw [hs.outside q fun hin => ?_, hq]
              have hstate := hs.before (q - (B.Is I).offset) (by have := hin.1; have := hin.2; omega)
              rw [STATE, show (B.Is I).offset + (q - (B.Is I).offset) = q from by have := hin.1; omega] at hstate
              rw [hstate] at hq
              cases hq
            rw [← hs.bytes]
            rcases patch_touches hwD htD (by rwa [hs.count]) hpatch with ⟨-, t, rfl, -⟩ | ⟨-, htr | ⟨-, R, htr, -⟩⟩
            · rfl
            · exact (htr.unknown q hqD).kind.1
            · exact (htr.unknown q hqD).kind.1
          · rfl

theorem parseBinary_T0 {file : File} {mode : Mode} {options : Options} {analysis : Option (Nat → Bool)}
    {B : Binary} (h : parseBinary file mode options analysis = .ok B) :
    B.options.option_tactic_T0 = options.option_tactic_T0 := by
  obtain ⟨C, hC, h⟩ := bind_ok.mp h
  cases h
  have hframe : C.options = (newBinary file mode options).options := by
    refine foldlM_rel (R := fun D E => E.options = D.options) (fun D => rfl) (fun h1 h2 => ?_)
      (fun a _ D E hf => ?_) hC
    · exact h2.trans h1
    · obtain ⟨t, n, -, rfl⟩ := reserve_inv (reserveSegment_ok hf)
      rfl
  rw [targetAnalysis_T0]
  unfold disableTraps
  split <;> simp [hframe, newBinary]

theorem Fresh.intact {B : Binary} (h : Fresh B) (hi : Invariant B)
    (hopt : B.options.option_tactic_T0 = false) : Intact [] B := by
  refine ⟨hi, h.tracked, fun k hk => ?_, fun q _ => by rw [h.bytes], fun k hk => ?_, fun k hk => ?_, hopt⟩ <;>
    exact absurd (h.count ▸ hk) (Nat.not_lt_zero _)

/-- The targets of jumps are valid, where `R` relates the original bytes of an instruction to those that
it has. -/
structure TargetsStay (R : List UInt8 → List UInt8 → Prop) (log : List Event) (B : Binary) : Prop where
  untouched : ∀ k < B.count, (∀ T options, Event.patched k T options true ∉ log) →
    (B.Is k).is_evicted = false → R (B.ORIG k) (B.PATCHED k)
  evicted : ∀ k < B.count, (B.Is k).is_evicted = true → ∃ A, Live B.allocator A ∧ (B.alloc A).I = some k ∧
    (B.alloc A).T = some evicteeTrampoline ∧
    decodeJump B.bytes 3 (B.Is k).offset (B.Is k).addr = some (.rel32 (B.entry A))
  unknown : ∀ q, (B.state q).kind = .UNKNOWN → B.bytes q = B.original q

theorem Intact.targetsStay {B : Binary} {log : List Event} (h : Intact log B) :
    TargetsStay (fun bytes bytes' => bytes' = bytes) log B := by
  refine ⟨fun k hk hp hev => ?_, fun k hk hev => (h.evicted k hk hev).leadsTo, h.unknown⟩
  have hpatched : (B.Is k).is_patched = false := by
    by_contra hne
    rcases h.cause k hk (by simpa using hne) with ⟨T, o, hm⟩ | hev'
    · exact hp T o hm
    · rw [hev] at hev'
      cases hev'
  exact List.map_congr_left fun i hi => h.bytes k hk hpatched i (List.mem_range.mp hi)

/-- A jump to a trampoline is not plain code, and so it is not optimized. -/
theorem Redirects.optimizes {B B' : Binary} {l : List Nat} {k : Nat} {T : Trampoline} (h : Redirects B k T)
    (hw : WellFormed B) (ho : Optimizes l B B') : Redirects B' k T := by
  have hguarded : ∀ q, Protected (B.state q) → B'.bytes q = B.bytes q := fun q hq => by
    by_contra hne
    rw [(ho.bytes q hne).1] at hq
    exact absurd hq (by decide)
  have he : Evolves B B' := fun q => by
    refine ⟨fun hq => ⟨hguarded q hq, ?_⟩, fun hq => ?_, fun hq => ?_⟩ <;>
      · rw [cell, ho.frame]
        exact hq
  exact h.stays he (.of_eq hw.allocates (by rw [ho.frame])) (by rw [ho.frame]) (by rw [ho.frame])

theorem Intact.optimized {B : Binary} {log : List Event} (h : Intact log B) :
    TargetsStay (fun bytes bytes' => bytes' = bytes ∨ Retargeted bytes bytes') log (optimizeAllJumps B) := by
  have ho := (optimizeAllJumps_optimizes h.tracked.apart).1
  have hcount : (optimizeAllJumps B).count = B.count := by rw [ho.frame]
  have hIs : (optimizeAllJumps B).Is = B.Is := by rw [ho.frame]
  refine ⟨fun k hk hp hev => ?_, fun k hk hev => ?_, fun q hq => ?_⟩
  · rw [hcount] at hk
    rw [hIs] at hev
    have hbefore := h.targetsStay.untouched k hk hp hev
    have hown := ho.own k (List.mem_range.mpr hk)
    rw [hbefore] at hown
    rwa [show (optimizeAllJumps B).ORIG k = B.ORIG k by rw [ho.frame]; rfl]
  · rw [hcount] at hk
    rw [hIs] at hev
    exact ((h.evicted k hk hev).optimizes h.invariant.wellFormed ho).leadsTo
  · have hstate : B.state q = (optimizeAllJumps B).state q := by rw [ho.frame]
    rw [← hstate] at hq
    have hbytes : (optimizeAllJumps B).bytes q = B.bytes q := by
      by_contra hne
      rw [(ho.bytes q hne).1] at hq
      cases hq
    rw [hbytes, h.unknown q hq, ho.frame]

/-- **Jump targets stay.** In every state of a run without T0: an instruction that was neither patched nor
evicted has its original bytes; one that was evicted decodes to a jump to the entry of a live allocation
for it and the evictee trampoline; and a byte that is not known to be part of an instruction is as it was,
also after whatever comes next. The optimization of jumps, which `-Opeephole` turns off, keeps this, but
for displacements of direct jumps and calls. -/
theorem jump_targets_stay {file : File} {mode : Mode} {options : Options} {analysis : Option (Nat → Bool)}
    {B₀ B : Binary} {log : List Event} (h₀ : parseBinary file mode options analysis = .ok B₀)
    (h : Actions (fun _ => True) B₀ log B) (hopt : options.option_tactic_T0 = false)
    (hlog : ∀ options analysis, Event.applied options analysis ∈ log → options.option_tactic_T0 = false) :
    TargetsStay (fun bytes bytes' => bytes' = bytes) log B ∧
    (∀ es B', Action (fun _ => True) B es B' → ∀ q, (B.state q).kind = .UNKNOWN → B'.bytes q = B.bytes q) ∧
    TargetsStay (fun bytes bytes' => bytes' = bytes ∨ Retargeted bytes bytes') log (optimizeAllJumps B) ∧
    (B.options.option_Opeephole = false → optimizeAllJumps B = B) := by
  have hB : Intact log B := h.intact ((parseBinary_fresh h₀).intact (parseBinary_invariant h₀)
    (by rw [parseBinary_T0 h₀, hopt])) hlog
  refine ⟨hB.targetsStay, fun es B' ha q hq => ?_, hB.optimized, ?_⟩
  · exact ha.unknown_byte hB.invariant hB.tracked hq
  · exact (optimizeAllJumps_optimizes hB.tracked.apart).2

/-! ### A jump to a patched instruction -/

/-- `jmp .+7; xor %eax,%eax; mov $0,%eax`. -/
def jumpFile : File :=
  { sampleFile with bytes := fun p => byteAt [0x90, 0xe9, 0x02, 0, 0, 0, 0x31, 0xc0, 0xb8, 0, 0, 0, 0] p }

def jumpOptions : Options := { defaultOptions with option_tactic_T0 := false }

/-- The `mov` is patched. -/
def jumpStream : List Message :=
  [.instruction [0x400008] [5] [8], .instruction [0x400006] [2] [6], .instruction [0x400001] [5] [1],
    .patch [sampleTemplate] [8] []]

/-- A record in which nothing is applied, and `k` is not patched. -/
def quiet (k : Nat) : Event → Bool
  | .applied _ _ => false
  | .patched I _ _ s => !(I == k && s)
  | _ => true

/-- The jump is as it was when the `mov` has been patched. -/
theorem jump_stays : ∃ B₀ B log, parseBinary jumpFile .ELF_EXE jumpOptions none = .ok B₀ ∧
    emitLog B₀ jumpStream = .ok (B, log) ∧ (B.Is 0).is_patched = true ∧ B.PATCHED 2 = [0xe9, 0x02, 0, 0, 0] := by
  obtain ⟨B₀, B, log, h₀, h, hr⟩ := streamResult_ok jumpFile jumpOptions jumpStream (by decide +kernel)
  have hfacts : (streamResult jumpFile jumpOptions jumpStream).toOption.map (fun r =>
      (r.1.count, (r.1.Is 0).is_patched, (r.1.Is 2).is_evicted, r.2.all (quiet 2), r.1.ORIG 2)) =
        some (3, true, false, true, [0xe9, 0x02, 0, 0, 0]) := by decide +kernel
  rw [hr] at hfacts
  obtain ⟨hc, hp, hev, hquiet, horig⟩ : B.count = 3 ∧ (B.Is 0).is_patched = true ∧
      (B.Is 2).is_evicted = false ∧ log.all (quiet 2) = true ∧ B.ORIG 2 = [0xe9, 0x02, 0, 0, 0] := by
    simpa only [Prod.mk.injEq] using Option.some.inj hfacts
  have hall := List.all_eq_true.mp hquiet
  have hstay := jump_targets_stay h₀ (emitLog_actions (inTime_true B₀ jumpStream) h) rfl
    fun o a hm => Bool.noConfusion (hall _ hm)
  refine ⟨B₀, B, log, h₀, h, hp, ?_⟩
  have hlt : 2 < B.count := by omega
  rw [hstay.1.untouched 2 hlt (fun T o hm => ?_) hev, horig]
  have := hall _ hm
  simp [quiet] at this

/-- Before emission the jump gets another displacement, though it was neither patched nor evicted. -/
theorem jump_is_retargeted : ∃ B₀ B log, parseBinary jumpFile .ELF_EXE jumpOptions none = .ok B₀ ∧
    emitLog B₀ jumpStream = .ok (B, log) ∧ ((optimizeAllJumps B).Is 2).is_patched = false ∧
    ((optimizeAllJumps B).Is 2).is_evicted = false ∧
    (optimizeAllJumps B).PATCHED 2 ≠ (optimizeAllJumps B).ORIG 2 := by
  obtain ⟨B₀, B, log, h₀, h, hr⟩ := streamResult_ok jumpFile jumpOptions jumpStream (by decide +kernel)
  have hfacts : (streamResult jumpFile jumpOptions jumpStream).toOption.map (fun r =>
      let C := optimizeAllJumps r.1
      ((C.Is 2).is_patched, (C.Is 2).is_evicted, decide (C.PATCHED 2 = C.ORIG 2))) =
        some (false, false, false) := by decide +kernel
  rw [hr] at hfacts
  obtain ⟨hp, hev, hne⟩ : ((optimizeAllJumps B).Is 2).is_patched = false ∧
      ((optimizeAllJumps B).Is 2).is_evicted = false ∧
      decide ((optimizeAllJumps B).PATCHED 2 = (optimizeAllJumps B).ORIG 2) = false := by
    simpa only [Prod.mk.injEq] using Option.some.inj hfacts
  exact ⟨B₀, B, log, h₀, h, hp, hev, of_decide_eq_false hne⟩

end E9Patch
