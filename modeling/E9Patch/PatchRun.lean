import E9Patch.PatchOutcome
import Mathlib.Logic.Relation

/-!
Runs of the backend. A step is a part of the handling of a message, down to the calls of the tactics;
what a message does is made of steps. The invariant holds between all of them, and the cells only ever
evolve: what is patched or locked once keeps its value for the rest of the run.
-/

namespace E9Patch
open Bytes Binary Fallible

/-! ### Steps -/

/-- The result of a call of a tactic. The tactics that replace an instruction by a jump are called for
every kind of trampoline, the others for those of the user only. -/
inductive TacticCall (B : Binary) (r : Binary × List Patch) : Prop where
  | B0 (I : Nat) (T : Template) : I < B.count → tactic_B0 I (.user T) B = .ok r → TacticCall B r
  | B1 (I : Nat) (T : Trampoline) (tactic : Tactic) :
      I < B.count → tactic_B1 I T tactic B = .ok r → TacticCall B r
  | B2 (I : Nat) (T : Trampoline) (tactic : Tactic) :
      I < B.count → tactic_B2 I T tactic B = .ok r → TacticCall B r
  | T0 (I : Nat) (T : Template) : I < B.count → tactic_T0 I (.user T) B = .ok r → TacticCall B r
  | T1 (I : Nat) (T : Trampoline) (tactic : Tactic) :
      I < B.count → tactic_T1 I T tactic B = .ok r → TacticCall B r
  | T2 (I : Nat) (T : Template) : I < B.count → tactic_T2 I (.user T) B = .ok r → TacticCall B r
  | T3 (I : Nat) (T : Template) : I < B.count → tactic_T3 I (.user T) B = .ok r → TacticCall B r
  | T3b (I : Nat) (T : Template) : I < B.count → tactic_T3b I (.user T) B = .ok r → TacticCall B r

inductive Step (B : Binary) : Binary → Prop where
  /-- An instruction message. -/
  | instruction {B' : Binary} (address length offset : List Int) :
      parseInstruction B address length offset = .ok B' → Step B B'
  /-- A reserve message. -/
  | reserve {B' : Binary} (absolute : List Bool) (address : List Int) (bytes : List Template)
      (length : List Int) : parseReserve B absolute address bytes length = .ok B' → Step B B'
  /-- A trampoline message. -/
  | trampoline {B' : Binary} (name : List String) (template : List Template) :
      parseTrampoline B name template = .ok B' → Step B B'
  /-- A patch message: the instruction gets its trampoline and is queued. -/
  | mark (I : Nat) (metadata : List MetaEntry) (T : Option Trampoline) :
      Step B (B.setInstr I { B.Is I with patch := true, metadata := metadata, T := T })
  | queue {B' : Binary} (I : Nat) (T : Template) : I < B.count → enqueue B I T = .ok B' → Step B B'
  /-- An options message, and an options entry of the queue. -/
  | postpone (options : Options) (analysis : Option (Nat → Bool)) :
      Step B { B with Q := B.Q ++ [.options options analysis] }
  | options (options : Options) (analysis : Option (Nat → Bool)) :
      Step B (applyOptions B options analysis)
  /-- The flush of the queue. -/
  | entrySet : Step B (buildEntrySet B)
  | cursor (cursor : Int) : Step B { B with cursor := cursor }
  | pop (Q : List PatchEntry) : Q ⊆ B.Q → Step B { B with Q := Q }
  | dequeue {B' : Binary} (I : Nat) : I < B.count → unqueue I B = .ok B' → Step B B'
  | patch {B' : Binary} {tactic : Option Tactic} (I : Nat) (T : Template) : I < B.count →
      Binary.patch I (.user T) B = .ok (B', tactic) → Step B B'
  /-- Within `patch`: a call of a tactic, an instruction that T0 frees, a jump that T3 places. -/
  | tactic (r : Binary × List Patch) : TacticCall B r → Step B r.1
  | free {B' : Binary} (K : Nat) : K < B.count → ¬Protected (B.STATE K 0) →
      (B.newPatch K .T0 none).1.patchUnused K 0 = .ok B' → Step B B'
  | flag (J : Nat) (v : Bool) : Step B (B.setNoOptimize J v)
  | place {B₁ B' : Binary} {A : Nat} {P : Patch} (I J i : Nat) (T : Template) : J < B.count →
      B.allocatePunnedJump J i I (.user T) = .ok (some (B₁, A)) →
      B₁.applyJump J .T3 A i = .ok (B', P) → Step B B'

/-- What comes later in a run. -/
def Runs : Binary → Binary → Prop := Relation.ReflTransGen Step

/-- A state of some run. -/
def Reachable (B : Binary) : Prop :=
  ∃ file mode options analysis B₀, parseBinary file mode options analysis = .ok B₀ ∧ Runs B₀ B

theorem Reachable.runs {B B' : Binary} (h : Reachable B) (hr : Runs B B') : Reachable B' := by
  obtain ⟨file, mode, options, analysis, B₀, h₀, h₁⟩ := h
  exact ⟨file, mode, options, analysis, B₀, h₀, h₁.trans hr⟩

theorem Reachable.step {B B' : Binary} (h : Reachable B) (hs : Step B B') : Reachable B' :=
  h.runs (.single hs)

/-! ### The invariant -/

structure Invariant (B : Binary) : Prop where
  wellFormed : WellFormed B
  queue : ∀ I T, PatchEntry.patch I T ∈ B.Q → I < B.count

/-- As far as the invariant goes, the instructions are the same. -/
def SameShape (B B' : Binary) : Prop :=
  B'.count = B.count ∧ ∀ k, (B'.Is k).offset = (B.Is k).offset ∧ (B'.Is k).size = (B.Is k).size ∧
    (B'.Is k).addr = (B.Is k).addr ∧ (B'.Is k).is_evicted = (B.Is k).is_evicted

theorem SameShape.of_eq {B B' : Binary} (hI : B'.Is = B.Is) (hc : B'.count = B.count) : SameShape B B' :=
  ⟨hc, fun k => by rw [hI]; exact ⟨rfl, rfl, rfl, rfl⟩⟩

theorem sameShape_setInstr {B : Binary} {k : Nat} {I : Instr} (ho : I.offset = (B.Is k).offset)
    (hs : I.size = (B.Is k).size) (ha : I.addr = (B.Is k).addr)
    (he : I.is_evicted = (B.Is k).is_evicted) : SameShape B (B.setInstr k I) := by
  refine ⟨rfl, fun j => ?_⟩
  by_cases hj : j = k
  · subst hj
    simp [setInstr, ho, hs, ha, he]
  · simp [setInstr, hj]

theorem Evolves.of_eq {B B' : Binary} (h : B'.cell = B.cell) : Evolves B B' := fun q => by
  rw [h]
  exact .refl _

theorem WellFormed.same {B B' : Binary} (hw : WellFormed B) (hs : SameShape B B') (he : Evolves B B')
    (ha : B'.Allocates) : WellFormed B' := by
  obtain ⟨hc, hf⟩ := hs
  refine ⟨ha, fun k hk => ?_, fun j k hjk hk => ?_, fun j k hjk hk => ?_, fun k hk => ?_,
    fun k hk i hi => ?_, fun k hk hev => ?_⟩
  · rw [(hf k).2.1]
    exact hw.size k (hc ▸ hk)
  · rw [(hf k).1, (hf k).2.1, (hf j).1]
    exact hw.offsets j k hjk (hc ▸ hk)
  · rw [(hf k).2.2.1, (hf k).2.1, (hf j).2.2.1]
    exact hw.addrs j k hjk (hc ▸ hk)
  · rw [(hf k).1]
    exact hw.zero k (hc ▸ hk)
  · rw [(hf k).2.1] at hi
    rw [STATE, (hf k).1]
    exact (he _).known (hw.known k (hc ▸ hk) i hi)
  · rw [(hf k).2.2.2] at hev
    have hcl := hw.evicted k (hc ▸ hk) hev
    unfold Closed STATE at hcl ⊢
    rw [(hf k).1, (hf k).2.1]
    exact ⟨((he _).guarded hcl.1).2, fun i hi => (he _).dead (hcl.2 i hi)⟩

/-- Steps that leave cells and instructions alone. -/
theorem WellFormed.frame {B B' : Binary} (hw : WellFormed B) (hI : B'.Is = B.Is)
    (hc : B'.count = B.count) (hcell : B'.cell = B.cell) (ha : B'.Allocates) : WellFormed B' :=
  hw.same (.of_eq hI hc) (.of_eq hcell) ha

/-! ### Instruction messages -/

theorem failIf_ok {p : Prop} [Decidable p] {message : String} {u : Unit} :
    failIf p message = .ok u ↔ ¬p := by
  by_cases h : p <;> simp [failIf, h]

theorem claimByte_spec {B B' : Binary} {I i : Nat} (h : claimByte I B i = .ok B') :
    B.STATE I i = STATE_UNKNOWN ∧ B' = B.setState ((B.Is I).offset + i) STATE_INSTRUCTION := by
  unfold claimByte at h
  simp only at h
  split at h
  · rename_i hs
    cases h
    exact ⟨hs, rfl⟩
  · split at h <;> cases h

/-- The bytes of the new instruction are claimed, and were not before. -/
theorem claim_spec {B B' : Binary} {I n : Nat} (h : (List.range n).foldlM (claimByte I) B = .ok B') :
    Rewrites B B' ∧ Evolves B B' ∧
      ∀ i < n, (B'.cell ((B.Is I).offset + i)).2 = STATE_INSTRUCTION := by
  obtain ⟨hr, hother, hl⟩ := loop_cells I (B.Is I).offset
    (fun _ c d => c.2 = STATE_UNKNOWN ∧ d = (c.1, STATE_INSTRUCTION)) List.nodup_range
    (fun i _ C C' hI hf => by
      obtain ⟨hs, rfl⟩ := claimByte_spec hf
      rw [STATE, hI] at hs
      rw [hI]
      exact ⟨rewrites_setState _ _ _, fun q hq => by rw [cell_setState, if_neg hq], hs,
        by rw [cell_setState, if_pos rfl]; rfl⟩) h
  refine ⟨hr, evolves_of_loop (fun _ c d => c.2 = STATE_UNKNOWN ∧ d = (c.1, STATE_INSTRUCTION))
    (fun i _ c d hcd => ?_) hother hl, fun i hi => ?_⟩
  · obtain ⟨hc, rfl⟩ := hcd
    refine ⟨fun hp => ?_, fun hd => absurd hc hd.1, fun hk => absurd hc hk⟩
    rw [hc] at hp
    exact absurd hp (by decide)
  · rw [(hl i (List.mem_range.mpr hi)).2]

theorem newInstr_Is (B : Binary) (offset : Nat) (address : Int) (length k : Nat) :
    (((newInstr B offset address length).Is k).offset = if k = B.count then offset else (B.Is k).offset) ∧
    (((newInstr B offset address length).Is k).size = if k = B.count then length else (B.Is k).size) ∧
    (((newInstr B offset address length).Is k).addr = if k = B.count then address else (B.Is k).addr) ∧
    (((newInstr B offset address length).Is k).is_evicted =
      if k = B.count then false else (B.Is k).is_evicted) := by
  by_cases h : k = B.count <;> simp [newInstr, setInstr, Instr.zero, h]

/-- What the checks of an instruction message amount to. -/
structure FitsBelow (B : Binary) (offset : Nat) (address : Int) (size : Nat) : Prop where
  length : 1 ≤ size ∧ size ≤ 15
  below : 0 < B.count → offset + size ≤ (B.Is (B.count - 1)).offset ∧
    address + size ≤ (B.Is (B.count - 1)).addr

theorem FitsBelow.all {B : Binary} {offset size : Nat} {address : Int}
    (h : FitsBelow B offset address size) (hw : WellFormed B) {j : Nat} (hj : j < B.count) :
    offset + size ≤ (B.Is j).offset ∧ address + size ≤ (B.Is j).addr := by
  obtain ⟨h1, h2⟩ := h.below (by omega)
  rcases Nat.lt_or_eq_of_le (Nat.le_sub_one_of_lt hj) with hlt | rfl
  · have h3 := hw.offsets j (B.count - 1) hlt (by omega)
    have h4 := hw.addrs j (B.count - 1) hlt (by omega)
    omega
  · exact ⟨h1, h2⟩

theorem parseInstruction_ok {B B' : Binary} {address length offset : List Int}
    (h : parseInstruction B address length offset = .ok B') :
    ∃ (off : Nat) (addr : Int) (len : Nat), FitsBelow B off addr len ∧
      (List.range len).foldlM (claimByte B.count) (newInstr B off addr len) = .ok B' := by
  unfold parseInstruction at h
  obtain ⟨addr, -, h⟩ := bind_ok.mp h
  obtain ⟨len, -, h⟩ := bind_ok.mp h
  obtain ⟨_, h1, h⟩ := bind_ok.mp h
  obtain ⟨off, -, h⟩ := bind_ok.mp h
  obtain ⟨_, h2, h⟩ := bind_ok.mp h
  obtain ⟨_, -, h⟩ := bind_ok.mp h
  obtain ⟨_, -, h⟩ := bind_ok.mp h
  obtain ⟨_, -, h⟩ := bind_ok.mp h
  obtain ⟨_, h4, h⟩ := bind_ok.mp h
  rw [failIf_ok] at h1 h2 h4
  refine ⟨off.toNat, addr, toU64 len, ⟨?_, fun hpos => ?_⟩, h⟩
  · omega
  · rw [not_and] at h4
    have := h4 hpos
    omega

theorem instruction_spec {B B' : Binary} {address length offset : List Int} (hw : WellFormed B)
    (h : parseInstruction B address length offset = .ok B') :
    WellFormed B' ∧ Evolves B B' ∧ B'.Q = B.Q ∧ B'.count = B.count + 1 := by
  obtain ⟨off, addr, len, hfit, h⟩ := parseInstruction_ok h
  obtain ⟨hr, he, hclaimed⟩ := claim_spec h
  have hf := fun k => newInstr_Is B off addr len k
  rw [← hr.Is] at hf
  have hcount : B'.count = B.count + 1 := by
    rw [hr]
    rfl
  have hev : Evolves B B' := he
  have halloc : B'.Allocates := by
    have : B'.allocator = B.allocator := by
      rw [hr]
      rfl
    unfold Allocates
    rw [this]
    exact hw.allocates
  rw [(newInstr_Is B off addr len B.count).1, if_pos rfl] at hclaimed
  refine ⟨⟨halloc, fun k hk => ?_, fun j k hjk hk => ?_, fun j k hjk hk => ?_, fun k hk => ?_,
    fun k hk i hi => ?_, fun k hk hevk => ?_⟩, hev, ?_, hcount⟩
  · rw [(hf k).2.1]
    split
    · exact hfit.length
    · exact hw.size k (by omega)
  · rw [(hf k).1, (hf k).2.1, (hf j).1, if_neg (by omega : j ≠ B.count)]
    split
    · exact (hfit.all hw (by omega)).1
    · exact hw.offsets j k hjk (by omega)
  · rw [(hf k).2.2.1, (hf k).2.1, (hf j).2.2.1, if_neg (by omega : j ≠ B.count)]
    split
    · exact (hfit.all hw (by omega)).2
    · exact hw.addrs j k hjk (by omega)
  · rw [(hf k).1, if_neg (by omega)]
    exact hw.zero k (by omega)
  · rw [(hf k).2.1] at hi
    rw [STATE, (hf k).1]
    split at hi
    · rename_i hnew
      rw [if_pos hnew, ← cell_snd, hclaimed i hi]
      decide
    · rename_i hold
      rw [if_neg hold]
      exact (hev _).known (hw.known k (by omega) i hi)
  · rw [(hf k).2.2.2] at hevk
    split at hevk
    · cases hevk
    · rename_i hold
      have hcl := hw.evicted k (by omega) hevk
      unfold Closed STATE at hcl ⊢
      rw [(hf k).1, (hf k).2.1, if_neg hold, if_neg hold]
      exact ⟨((hev _).guarded hcl.1).2, fun i hi => (hev _).dead (hcl.2 i hi)⟩
  · rw [hr]
    rfl

/-! ### The other messages -/

/-- What a step does as far as the invariant and the cells go. -/
structure StepOk (B B' : Binary) : Prop where
  wellFormed : WellFormed B'
  evolves : Evolves B B'
  count : B.count ≤ B'.count
  queue : ∀ I T, PatchEntry.patch I T ∈ B'.Q → PatchEntry.patch I T ∈ B.Q ∨ I < B.count

theorem StepOk.of_eq {B B' : Binary} (hw : WellFormed B') (he : Evolves B B') (hc : B'.count = B.count)
    (hQ : B'.Q = B.Q) : StepOk B B' :=
  ⟨hw, he, hc.ge, fun I T hm => Or.inl (by rwa [hQ] at hm)⟩

/-- Steps that leave cells, instructions, allocations and the queue alone. -/
theorem StepOk.frame {B B' : Binary} (hw : WellFormed B) (hI : B'.Is = B.Is) (hc : B'.count = B.count)
    (hcell : B'.cell = B.cell) (ha : B'.allocator = B.allocator) (hQ : B'.Q = B.Q) : StepOk B B' :=
  .of_eq (hw.frame hI hc hcell (by unfold Allocates; rw [ha]; exact hw.allocates)) (.of_eq hcell) hc hQ

/-- Only the set of allocations changes. -/
theorem allocates_only {B B' : Binary} (hw : WellFormed B) (h : B' = { B with allocator := B'.allocator })
    (ha : B'.Allocates) : StepOk B B' := by
  have hI : B'.Is = B.Is := by rw [h]
  have hc : B'.count = B.count := by rw [h]
  have hQ : B'.Q = B.Q := by rw [h]
  have hcell : B'.cell = B.cell := by
    rw [h]
    rfl
  exact .of_eq (hw.frame hI hc hcell ha) (.of_eq hcell) hc hQ

/-- What a successful `reserve` of the binary does. -/
theorem reserve_inv {B B' : Binary} {lb ub : Int} (h : B.reserve checked lb ub = .ok (some B')) :
    ∃ t n, B.allocator.reserve checked lb ub = .ok (some (t, n)) ∧ B' = { B with allocator := t } := by
  obtain ⟨o, ho, h⟩ := bind_ok.mp h
  cases o with
  | none => cases h
  | some r =>
      cases h
      exact ⟨r.1, r.2, defined_ok.mp ho, rfl⟩

theorem reserveLength_ok {B B' : Binary} {addr len : Int} (h : reserveLength checked B addr len = .ok B') :
    B.reserve checked addr (signed64 (addr + len)) = .ok (some B') := by
  obtain ⟨o, ho, h⟩ := bind_ok.mp h
  cases o with
  | none => cases h
  | some C =>
      cases h
      exact ho

theorem reserveSegment_ok {B B' : Binary} {segment : Int × Int} (h : reserveSegment B segment = .ok B') :
    B.reserve checked segment.1 segment.2 = .ok (some B') := by
  obtain ⟨o, ho, h⟩ := bind_ok.mp h
  cases o with
  | none => cases h
  | some C =>
      cases h
      exact ho

theorem allocates_reserve {t t' : Tree Trampoline Nat} {lb ub : Int} {n : Nat}
    (ht : ∃ ids, Balanced t ids) (h : t.reserve checked lb ub = .ok (some (t', n))) : ∃ ids, Balanced t' ids := by
  obtain ⟨ids, hb⟩ := ht
  obtain ⟨-, -, entry, ha⟩ := reserve_ok hb h
  obtain ⟨ids', hb', -⟩ := ha.balanced
  exact ⟨ids', hb'⟩

theorem reserveTrampoline_spec {B B' : Binary} {a : Int × Option Template} (hB : B.Allocates)
    (h : reserveTrampoline B a = .ok B') :
    B'.Allocates ∧ B' = { B with allocator := B'.allocator } := by
  unfold reserveTrampoline at h
  split at h
  · cases h
    exact ⟨hB, rfl⟩
  · obtain ⟨o, ho, h⟩ := bind_ok.mp h
    cases o with
    | none => cases h
    | some o =>
        cases h
        obtain ⟨ha, -⟩ := allocate_spec hB ho
        exact ⟨ha.progress.allocates, ha.binary⟩

/-- A reserve message changes the set of allocations only. -/
theorem parseReserve_only {B B' : Binary} {absolute : List Bool} {address : List Int} {bytes : List Template}
    {length : List Int} (hB : B.Allocates) (h : parseReserve B absolute address bytes length = .ok B') :
    B'.Allocates ∧ B' = { B with allocator := B'.allocator } := by
  unfold parseReserve at h
  obtain ⟨addr, -, h⟩ := bind_ok.mp h
  obtain ⟨_, -, h⟩ := bind_ok.mp h
  obtain ⟨_, -, h⟩ := bind_ok.mp h
  obtain ⟨_, -, h⟩ := bind_ok.mp h
  split at h
  · obtain ⟨size, -, h⟩ := bind_ok.mp h
    refine foldlM_rel (R := fun C C' => C.Allocates → C'.Allocates ∧
      C' = { C with allocator := C'.allocator }) (fun C hC => ⟨hC, rfl⟩) (fun h1 h2 hC => ?_)
      (fun a _ C C' hf hC => reserveTrampoline_spec hC hf) h hB
    obtain ⟨h3, h4⟩ := h1 hC
    obtain ⟨h5, h6⟩ := h2 h3
    rw [h4] at h6
    exact ⟨h5, h6⟩
  · split at h
    · cases h
      exact ⟨hB, rfl⟩
    · obtain ⟨t, n, ht, rfl⟩ := reserve_inv (reserveLength_ok h)
      exact ⟨allocates_reserve hB ht, rfl⟩
  · cases h
    exact ⟨hB, rfl⟩

theorem reserve_spec {B B' : Binary} {absolute : List Bool} {address : List Int} {bytes : List Template}
    {length : List Int} (hw : WellFormed B) (h : parseReserve B absolute address bytes length = .ok B') :
    StepOk B B' := by
  obtain ⟨ha, hB'⟩ := parseReserve_only hw.allocates h
  exact allocates_only hw hB' ha

/-- A trampoline message changes the named trampolines only. -/
theorem parseTrampoline_only {B B' : Binary} {name : List String} {template : List Template}
    (h : parseTrampoline B name template = .ok B') : B' = { B with Ts := B'.Ts } := by
  unfold parseTrampoline at h
  obtain ⟨n, -, h⟩ := bind_ok.mp h
  obtain ⟨_, -, h⟩ := bind_ok.mp h
  obtain ⟨T, -, h⟩ := bind_ok.mp h
  obtain ⟨_, -, h⟩ := bind_ok.mp h
  obtain ⟨_, -, h⟩ := bind_ok.mp h
  cases h
  rfl

theorem trampoline_spec {B B' : Binary} {name : List String} {template : List Template}
    (hw : WellFormed B) (h : parseTrampoline B name template = .ok B') : StepOk B B' := by
  rw [parseTrampoline_only h]
  exact .frame hw rfl rfl rfl rfl rfl

theorem setInstr_spec {B : Binary} {k : Nat} {I : Instr} (hw : WellFormed B)
    (hs : SameShape B (B.setInstr k I)) : StepOk B (B.setInstr k I) :=
  .of_eq (hw.same hs (.refl B) hw.allocates) (.refl B) rfl rfl

/-- The loops over the bytes of an instruction that queue it and take it off the queue. -/
theorem restate_spec {B B' : Binary} {I n : Nat} {s s' : ByteState}
    {f : Binary → Nat → Except Fault Binary}
    (hf : ∀ {C C' i}, f C i = .ok C' → C.STATE I i = s ∧ C' = C.setState ((C.Is I).offset + i) s')
    (hstep : ∀ b, CellStep (b, s) (b, s')) (h : (List.range n).foldlM f B = .ok B') :
    Rewrites B B' ∧ Evolves B B' := by
  obtain ⟨hr, hother, hl⟩ := loop_cells I (B.Is I).offset
    (fun _ c d => c.2 = s ∧ d = (c.1, s')) List.nodup_range (fun i _ C C' hI hC => by
      obtain ⟨hs, rfl⟩ := hf hC
      rw [STATE, hI] at hs
      rw [hI]
      exact ⟨rewrites_setState _ _ _, fun q hq => by rw [cell_setState, if_neg hq], hs,
        by rw [cell_setState, if_pos rfl]; rfl⟩) h
  refine ⟨hr, evolves_of_loop (fun _ c d => c.2 = s ∧ d = (c.1, s')) (fun i _ c d hcd => ?_)
    hother hl⟩
  obtain ⟨rfl, rfl⟩ := hcd
  exact hstep c.1

theorem CellStep.of_open {b : UInt8} {s s' : ByteState} (hp : ¬Protected s) (hd : ¬Dead s)
    (hs : s' ≠ STATE_UNKNOWN) : CellStep (b, s) (b, s') :=
  ⟨fun h => absurd h hp, fun h => absurd h hd, fun _ => hs⟩

theorem queueByte_spec {C C' : Binary} {I i : Nat} (h : queueByte I C i = .ok C') :
    C.STATE I i = STATE_INSTRUCTION ∧ C' = C.setState ((C.Is I).offset + i) STATE_QUEUED := by
  obtain ⟨_, hs, h⟩ := bind_ok.mp h
  rw [assert_ok] at hs
  cases h
  exact ⟨hs, rfl⟩

theorem unqueueByte_spec {C C' : Binary} {I i : Nat} (h : unqueueByte I C i = .ok C') :
    C.STATE I i = STATE_QUEUED ∧ C' = C.setState ((C.Is I).offset + i) STATE_INSTRUCTION := by
  obtain ⟨_, hs, h⟩ := bind_ok.mp h
  rw [assert_ok] at hs
  cases h
  exact ⟨hs, rfl⟩

theorem rewrites_spec {B B' : Binary} (hw : WellFormed B) (hr : Rewrites B B') (he : Evolves B B') :
    WellFormed B' := by
  refine hw.same (.of_eq hr.Is (by rw [hr])) he ?_
  have : B'.allocator = B.allocator := by rw [hr]
  unfold Allocates
  rw [this]
  exact hw.allocates

theorem queue_spec {B B' : Binary} {I : Nat} {T : Template} (hw : WellFormed B) (hI : I < B.count)
    (h : enqueue B I T = .ok B') : StepOk B B' := by
  obtain ⟨C, hC, h⟩ := bind_ok.mp h
  cases h
  obtain ⟨hr, he⟩ := restate_spec queueByte_spec (fun b => .of_open (by decide) (by decide) (by decide)) hC
  have hwC := rewrites_spec hw hr he
  have hcount : C.count = B.count := by rw [hr]
  have hQ : C.Q = B.Q := by rw [hr]
  have hw' : WellFormed { C with Q := C.Q ++ [.patch I T] } := hwC.frame rfl rfl rfl hwC.allocates
  refine ⟨hw', he, hcount.ge, fun J U hm => ?_⟩
  rcases List.mem_append.mp hm with hm | hm
  · rw [hQ] at hm
    exact Or.inl hm
  · have : J = I := by
      have := List.mem_singleton.mp hm
      cases this
      rfl
    exact Or.inr (this ▸ hI)

theorem dequeue_spec {B B' : Binary} {I : Nat} (hw : WellFormed B) (h : unqueue I B = .ok B') :
    StepOk B B' := by
  obtain ⟨C, hC, h⟩ := bind_ok.mp h
  cases h
  obtain ⟨hr, he⟩ := restate_spec unqueueByte_spec (fun b => .of_open (by decide) (by decide) (by decide)) hC
  have hwC := rewrites_spec hw hr he
  have hs := setInstr_spec hwC (sameShape_setInstr (k := I)
    (I := { C.Is I with debug := C.options.option_trap_all || (C.Is I).addr ∈ C.options.option_trap })
    rfl rfl rfl rfl)
  exact .of_eq hs.wellFormed (he.trans hs.evolves) (by rw [hr]; rfl) (by rw [hr]; rfl)

/-- The steps that set options leave the rest alone. -/
structure SameButOptions (B B' : Binary) : Prop where
  eq : B' = { B with options := B'.options, config := B'.config, targets := B'.targets }

theorem SameButOptions.trans {B B' B'' : Binary} (h : SameButOptions B B') (h' : SameButOptions B' B'') :
    SameButOptions B B'' := by
  obtain ⟨h⟩ := h
  obtain ⟨h'⟩ := h'
  rw [h] at h'
  exact ⟨h'⟩

theorem SameButOptions.step {B B' : Binary} (h : SameButOptions B B') (hw : WellFormed B) : StepOk B B' := by
  rw [h.eq]
  exact .frame hw rfl rfl rfl rfl rfl

theorem targetAnalysis_same (B : Binary) (analysis : Option (Nat → Bool)) :
    SameButOptions B (targetAnalysis B analysis) := by
  unfold targetAnalysis
  split
  · exact ⟨rfl⟩
  · split <;> exact ⟨rfl⟩

theorem applyOptions_same (B : Binary) (options : Options) (analysis : Option (Nat → Bool)) :
    SameButOptions B (applyOptions B options analysis) := by
  unfold applyOptions
  simp only
  refine SameButOptions.trans ?_ (targetAnalysis_same _ _)
  split <;> exact ⟨rfl⟩

theorem disableTraps_same (B : Binary) : SameButOptions B (disableTraps B) := by
  unfold disableTraps
  split <;> exact ⟨rfl⟩

theorem buildEntrySet_frame (B : Binary) : ∃ Es, buildEntrySet B = { B with Es := Es } := by
  unfold buildEntrySet
  simp only
  split
  · exact ⟨B.Es, rfl⟩
  · exact ⟨_, rfl⟩

/-! ### Within `patch` -/

theorem commit_frame (B : Binary) (Ps : List Patch) :
    ∃ Es Traps, B.commit Ps = { B with Es := Es, Traps := Traps } := by
  have hfold : ∀ (Qs : List Patch) (C : Binary), ∃ Es, Qs.foldl commitPatch C = { C with Es := Es } := by
    intro Qs
    induction Qs with
    | nil => exact fun C => ⟨C.Es, rfl⟩
    | cons Q Qs ih =>
        intro C
        have hone : ∃ Es, commitPatch C Q = { C with Es := Es } := by
          unfold commitPatch
          split
          · exact ⟨C.Es, rfl⟩
          · exact ⟨_, rfl⟩
        obtain ⟨Es, hEs⟩ := hone
        obtain ⟨Es', hEs'⟩ := ih (commitPatch C Q)
        exact ⟨Es', by rw [List.foldl_cons, hEs', hEs]⟩
  unfold commit
  simp only
  split
  · obtain ⟨Es, hEs⟩ := hfold _ { B with Traps := _ }
    exact ⟨Es, _, hEs⟩
  · obtain ⟨Es, hEs⟩ := hfold Ps B
    exact ⟨Es, B.Traps, hEs⟩

/-- The outcome of `patch`: nothing, or the success of a tactic, of which a record is made. -/
theorem patch_spec {B B' : Binary} {I : Nat} {T : Template} {o : Option Tactic} (hw : WellFormed B)
    (hI : I < B.count) (h : Binary.patch I (.user T) B = .ok (B', o)) :
    (o = none ∧ Unchanged B B') ∨ ∃ C P Ps, o = some P.tactic ∧ Success I (.user T) B C (P :: Ps) ∧
      B' = C.commit (P :: Ps) := by
  obtain ⟨r, -, ⟨-, hu, rfl, rfl⟩ | ⟨P, Ps, -, hs, rfl, rfl⟩⟩ := patch_cases hw hI Trampoline.noConfusion h
  · exact Or.inl ⟨rfl, hu⟩
  · exact Or.inr ⟨r.1, P, Ps, rfl, hs, rfl⟩

theorem StepOk.of_progress {B B' : Binary} (hw : WellFormed B) (hp : Progress B B')
    (he : EvictsOnly B B') : StepOk B B' :=
  .of_eq (hw.evicts hp he) hp.evolves hp.count (by rw [hp.rest])

theorem AllOrNothing.step {B : Binary} {I : Nat} {T : Trampoline} {r : Binary × List Patch}
    (hw : WellFormed B) (h : AllOrNothing I T B r) : StepOk B r.1 := by
  rcases h with ⟨-, hu⟩ | ⟨-, hs⟩
  · exact .of_progress hw hu.progress hu.evicts
  · exact .of_progress hw hs.progress hs.evicts

theorem Attempt.step {B : Binary} {I : Nat} {T : Trampoline} {tactic : Tactic} {r : Binary × List Patch}
    (hw : WellFormed B) (h : Attempt I T tactic B r) : StepOk B r.1 := by
  rcases h with ⟨-, hu⟩ | ⟨P, -, hred⟩
  · exact .of_progress hw hu.progress hu.evicts
  · exact .of_progress hw hred.progress hred.evicts

theorem user_ne_evictee (T : Template) : Trampoline.user T ≠ evicteeTrampoline :=
  fun he => Trampoline.noConfusion he

/-- What a tactic does is all or nothing, or an attempt. -/
theorem TacticCall.outcome {B : Binary} {r : Binary × List Patch} (hw : WellFormed B) (h : TacticCall B r) :
    (∃ I T, AllOrNothing I T B r) ∨ ∃ I T tactic, Attempt I T tactic B r := by
  cases h with
  | B0 I T hI h => exact Or.inl ⟨I, _, tactic_B0_spec hw (user_ne_evictee T) h⟩
  | B1 I T tactic hI h => exact Or.inr ⟨I, T, tactic, tactic_B1_spec hw hI h⟩
  | B2 I T tactic hI h => exact Or.inr ⟨I, T, tactic, tactic_B2_spec hw hI h⟩
  | T0 I T hI h => exact Or.inl ⟨I, _, tactic_T0_spec hw hI h⟩
  | T1 I T tactic hI h => exact Or.inr ⟨I, T, tactic, tactic_T1_spec hw hI h⟩
  | T2 I T hI h => exact Or.inl ⟨I, _, tactic_T2_spec hw hI h⟩
  | T3 I T hI h => exact Or.inl ⟨I, _, tactic_T3_spec hw hI (user_ne_evictee T) h⟩
  | T3b I T hI h => exact Or.inl ⟨I, _, tactic_T3b_spec hw (user_ne_evictee T) h⟩

theorem TacticCall.spec {B : Binary} {r : Binary × List Patch} (hw : WellFormed B) (h : TacticCall B r) :
    StepOk B r.1 ∧ (r.2 = [] → Unchanged B r.1) := by
  rcases h.outcome hw with ⟨I, T, h'⟩ | ⟨I, T, tactic, h'⟩
  · exact ⟨h'.step hw, fun hnil => h'.elim (·.2) fun hs => absurd hnil hs.1⟩
  · exact ⟨h'.step hw, fun hnil => h'.elim (·.2) fun ⟨P, hP, _⟩ => by rw [hP] at hnil; cases hnil⟩

/-- Every tactic makes progress, a failed one by leaving everything as it is. -/
theorem TacticCall.progress {B : Binary} {r : Binary × List Patch} (hw : WellFormed B) (h : TacticCall B r) :
    Progress B r.1 := by
  rcases h.outcome hw with ⟨I, T, hu | hs⟩ | ⟨I, T, tactic, hu | ⟨P, -, hr⟩⟩
  · exact hu.2.progress
  · exact hs.2.progress
  · exact hu.2.progress
  · exact hr.progress

theorem patch_step {B B' : Binary} {I : Nat} {T : Template} {o : Option Tactic} (hw : WellFormed B)
    (hI : I < B.count) (h : Binary.patch I (.user T) B = .ok (B', o)) : StepOk B B' := by
  rcases patch_spec hw hI h with ⟨-, hu⟩ | ⟨C, P, Ps, -, hs, rfl⟩
  · exact .of_progress hw hu.progress hu.evicts
  · obtain ⟨Es, Traps, hC⟩ := commit_frame C (P :: Ps)
    have hstep := StepOk.of_progress hw hs.progress hs.evicts
    have hwC := hstep.wellFormed
    rw [hC]
    exact ⟨hwC.frame rfl rfl rfl hwC.allocates, hstep.evolves, hstep.count, hstep.queue⟩

/-! ### The invariant over runs -/

theorem Step.ok {B B' : Binary} (hw : WellFormed B) (h : Step B B') : StepOk B B' := by
  cases h with
  | instruction address length offset h =>
      obtain ⟨hw', he, hQ, hc⟩ := instruction_spec hw h
      exact ⟨hw', he, by omega, fun I T hm => Or.inl (by rwa [hQ] at hm)⟩
  | reserve absolute address bytes length h => exact reserve_spec hw h
  | trampoline name template h => exact trampoline_spec hw h
  | mark I metadata T => exact setInstr_spec hw (sameShape_setInstr rfl rfl rfl rfl)
  | queue I T hI h => exact queue_spec hw hI h
  | postpone options analysis =>
      refine ⟨hw.frame rfl rfl rfl hw.allocates, .refl B, Nat.le_refl _, fun I T hm => ?_⟩
      rcases List.mem_append.mp hm with hm | hm
      · exact Or.inl hm
      · cases List.mem_singleton.mp hm
  | options options analysis => exact (applyOptions_same B options analysis).step hw
  | entrySet =>
      obtain ⟨Es, hEs⟩ := buildEntrySet_frame B
      rw [hEs]
      exact .frame hw rfl rfl rfl rfl rfl
  | cursor cursor => exact .frame hw rfl rfl rfl rfl rfl
  | pop Q hQ =>
      exact ⟨hw.frame rfl rfl rfl hw.allocates, .refl B, Nat.le_refl _,
        fun I T hm => Or.inl (hQ hm)⟩
  | dequeue I hI h => exact dequeue_spec hw h
  | patch I T hI h => exact patch_step hw hI h
  | tactic r h => exact (h.spec hw).1
  | free K hK hp h =>
      obtain ⟨hprog, hflags, -⟩ := freeInstr_spec hw hK (hw.not_evicted hK hp) h
      exact .of_progress hw hprog (.of_flags fun k hk => by rwa [hflags] at hk)
  | flag J v => exact setInstr_spec hw (sameShape_setInstr rfl rfl rfl rfl)
  | place I J i T hJ hA h =>
      obtain ⟨ha, hin⟩ := allocatePunnedJump_spec hw.allocates hA
      have hplaced := (applyJump_placed ha hin (user_ne_evictee T) h).1
      exact .of_progress hw hplaced.progress hplaced.evicts

theorem Step.invariant {B B' : Binary} (hi : Invariant B) (h : Step B B') : Invariant B' := by
  have hs := h.ok hi.wellFormed
  refine ⟨hs.wellFormed, fun I T hm => ?_⟩
  rcases hs.queue I T hm with hm | hI
  · exact Nat.lt_of_lt_of_le (hi.queue I T hm) hs.count
  · exact Nat.lt_of_lt_of_le hI hs.count

theorem Runs.invariant {B B' : Binary} (hi : Invariant B) (h : Runs B B') : Invariant B' := by
  induction h with
  | refl => exact hi
  | tail _ hs ih => exact hs.invariant ih

/-- The cells only ever evolve. -/
theorem Runs.evolves {B B' : Binary} (hi : Invariant B) (h : Runs B B') : Evolves B B' := by
  induction h with
  | refl => exact .refl B
  | tail hr hs ih => exact ih.trans (hs.ok (Runs.invariant hi hr).wellFormed).evolves

theorem newBinary_wellFormed (file : File) (mode : Mode) (options : Options) :
    WellFormed (newBinary file mode options) := by
  refine ⟨⟨[], empty_balanced⟩, fun k hk => ?_, fun j k _ hk => ?_, fun j k _ hk => ?_, fun k _ => rfl,
    fun k hk => ?_, fun k hk => ?_⟩ <;> exact absurd hk (Nat.not_lt_zero _)

theorem parseBinary_invariant {file : File} {mode : Mode} {options : Options}
    {analysis : Option (Nat → Bool)} {B : Binary} (h : parseBinary file mode options analysis = .ok B) :
    Invariant B := by
  obtain ⟨C, hC, h⟩ := bind_ok.mp h
  cases h
  have hnew := newBinary_wellFormed file mode options
  obtain ⟨halloc, hframe⟩ : C.Allocates ∧ C = { newBinary file mode options with allocator := C.allocator } := by
    refine foldlM_rel (R := fun D E => D.Allocates → E.Allocates ∧ E = { D with allocator := E.allocator })
      (fun D hD => ⟨hD, rfl⟩) (fun h1 h2 hD => ?_) (fun a _ D E hf hD => ?_) hC hnew.allocates
    · obtain ⟨h3, h4⟩ := h1 hD
      obtain ⟨h5, h6⟩ := h2 h3
      rw [h4] at h6
      exact ⟨h5, h6⟩
    · obtain ⟨t, n, ht, rfl⟩ := reserve_inv (reserveSegment_ok hf)
      exact ⟨allocates_reserve hD ht, rfl⟩
  have hC := allocates_only hnew hframe halloc
  have hE := ((disableTraps_same C).trans (targetAnalysis_same _ analysis))
  refine ⟨(hE.step hC.wellFormed).wellFormed, fun I T hm => ?_⟩
  rw [hE.eq, hframe] at hm
  cases hm

theorem Reachable.invariant {B : Binary} (h : Reachable B) : Invariant B := by
  obtain ⟨file, mode, options, analysis, B₀, h₀, h₁⟩ := h
  exact h₁.invariant (parseBinary_invariant h₀)

/-! ### Messages are made of steps -/

theorem Runs.single {B B' : Binary} (h : Step B B') : Runs B B' := Relation.ReflTransGen.single h

theorem patch_Q {B B' : Binary} {I : Nat} {T : Template} {o : Option Tactic} (hw : WellFormed B)
    (hI : I < B.count) (h : Binary.patch I (.user T) B = .ok (B', o)) : B'.Q = B.Q := by
  rcases patch_spec hw hI h with ⟨-, hu⟩ | ⟨C, P, Ps, -, hs, rfl⟩
  · rw [hu.progress.rest]
  · obtain ⟨Es, Traps, hC⟩ := commit_frame C (P :: Ps)
    have hQ : C.Q = B.Q := by rw [hs.progress.rest]
    rw [hC]
    exact hQ

theorem unqueue_Q {B B' : Binary} {I : Nat} (h : unqueue I B = .ok B') : B'.Q = B.Q := by
  obtain ⟨C, hC, h⟩ := bind_ok.mp h
  cases h
  obtain ⟨hr, -⟩ := restate_spec unqueueByte_spec (fun b => .of_open (by decide) (by decide) (by decide)) hC
  rw [hr]
  rfl

theorem flushEntry_runs {B B' : Binary} {entry : PatchEntry} (hi : Invariant B) (hentry : entry ∈ B.Q)
    (h : flushEntry B entry = .ok B') : Runs B B' ∧ B'.Q = B.Q := by
  cases entry with
  | options options analysis =>
      cases h
      exact ⟨.single (.options options analysis), by rw [(applyOptions_same B options analysis).eq]⟩
  | patch I T =>
      simp only [flushEntry] at h
      split at h
      · obtain ⟨C, hC, h⟩ := bind_ok.mp h
        obtain ⟨⟨D, o⟩, hD, h⟩ := bind_ok.mp h
        cases h
        have hI := hi.queue I T hentry
        have hstep : Step B C := .dequeue I hI hC
        have hs := hstep.ok hi.wellFormed
        have hIC : I < C.count := Nat.lt_of_lt_of_le hI hs.count
        exact ⟨(Runs.single hstep).tail (.patch I T hIC hD),
          (patch_Q hs.wellFormed hIC hD).trans (unqueue_Q hC)⟩
      · cases h
        exact ⟨.refl, rfl⟩

theorem flushLoop_runs {cursor : Int} {Q : List PatchEntry} {B B' : Binary} (hi : Invariant B)
    (hQ : B.Q = Q) (h : flushLoop cursor Q B = .ok B') : Runs B B' := by
  induction Q generalizing B with
  | nil =>
      cases h
      rw [← hQ]
      exact .refl
  | cons entry Q ih =>
      unfold flushLoop at h
      rw [← hQ] at h
      split at h
      · obtain ⟨C, hC, h⟩ := bind_ok.mp h
        obtain ⟨hr, hCQ⟩ := flushEntry_runs hi (by rw [hQ]; simp) hC
        have hpop : Step C { C with Q := Q } := .pop Q (by rw [hCQ, hQ]; exact List.subset_cons_self _ _)
        exact (hr.tail hpop).trans (ih (hpop.invariant (hr.invariant hi)) rfl h)
      · cases h
        exact .refl

theorem queueFlush_runs {B B' : Binary} {cursor : Int} (hi : Invariant B)
    (h : queueFlush B cursor = .ok B') : Runs B B' := by
  obtain ⟨_, -, h⟩ := bind_ok.mp h
  have hstep : Step B { B with cursor := cursor } := .cursor cursor
  exact (Runs.single hstep).trans (flushLoop_runs (hstep.invariant hi) rfl h)

/-- The binary search stays within the array. -/
theorem findLoop_lt {B : Binary} {offset lo hi : Int} {fuel I : Nat} (hlo : 0 ≤ lo)
    (hhi : hi ≤ B.count - 1) (h : findLoop B offset fuel lo hi = some I) : I < B.count := by
  induction fuel generalizing lo hi with
  | zero => cases h
  | succ fuel ih =>
      unfold findLoop at h
      simp only at h
      split at h
      · cases h
      · split at h
        · exact ih (by omega) hhi h
        · split at h
          · exact ih hlo (by omega) h
          · cases h
            omega

theorem parsePatch_runs {B B' : Binary} {trampoline : List Template} {offset : List Int}
    {metadata : List (List MetaEntry)} (hi : Invariant B)
    (h : parsePatch B trampoline offset metadata = .ok B') : Runs B B' := by
  unfold parsePatch at h
  obtain ⟨T, -, h⟩ := bind_ok.mp h
  obtain ⟨off, -, h⟩ := bind_ok.mp h
  obtain ⟨_, -, h⟩ := bind_ok.mp h
  split at h
  · cases h
  · rename_i I hI
    obtain ⟨_, -, h⟩ := bind_ok.mp h
    have hmark : Step B _ := .mark I (metadata.getLast?.getD []) (some (.user T))
    have hIc : I < B.count := findLoop_lt (by omega) (by omega) hI
    obtain ⟨C, hC, h⟩ := bind_ok.mp h
    have hqueue : Step _ C := .queue I T (by exact hIc) hC
    have hr : Runs B C := (Runs.single hmark).tail hqueue
    split at h
    · exact hr.trans (queueFlush_runs (hr.invariant hi) h)
    · cases h
      exact hr

/-- Every message is handled in steps. -/
theorem parseMessage_runs {B B' : Binary} {m : Message} (hi : Invariant B)
    (h : parseMessage B m = .ok B') : Runs B B' := by
  cases m with
  | instruction address length offset => exact .single (.instruction address length offset h)
  | patch trampoline offset metadata => exact parsePatch_runs hi h
  | options argv =>
      unfold parseMessage parseOptions at h
      obtain ⟨o, -, h⟩ := bind_ok.mp h
      obtain ⟨_, -, h⟩ := bind_ok.mp h
      cases h
      split
      · exact .single (.options o.1 o.2)
      · exact .single (.postpone o.1 o.2)
  | reserve absolute address bytes length => exact .single (.reserve absolute address bytes length h)
  | trampoline name template => exact .single (.trampoline name template h)

/-- So is the flush before emission. -/
theorem flushAll_runs {B B' : Binary} (hi : Invariant B) (h : flushAll B = .ok B') : Runs B B' :=
  (Runs.single .entrySet).trans (queueFlush_runs (Step.entrySet.invariant hi) h)

theorem messages_runs {B B' : Binary} {ms : List Message} (hi : Invariant B)
    (h : ms.foldlM parseMessage B = .ok B') : Runs B B' := by
  induction ms generalizing B with
  | nil =>
      obtain rfl : B = B' := by simpa using h
      exact .refl
  | cons m ms ih =>
      rw [List.foldlM_cons, bind_ok] at h
      obtain ⟨C, hC, h⟩ := h
      have hr := parseMessage_runs hi hC
      exact hr.trans (ih (hr.invariant hi) h)

theorem reachable_of_messages {file : File} {mode : Mode} {options : Options}
    {analysis : Option (Nat → Bool)} {B₀ B : Binary} {ms : List Message}
    (h₀ : parseBinary file mode options analysis = .ok B₀) (h : ms.foldlM parseMessage B₀ = .ok B) :
    Reachable B :=
  ⟨file, mode, options, analysis, B₀, h₀, messages_runs (parseBinary_invariant h₀) h⟩

end E9Patch
