import E9Patch.PatchRun

/-!
What patching guarantees in every reachable state: nothing that a jump relies on is ever changed, a
failure leaves no trace, and a success leads to its trampoline when the bytes are decoded again.
-/

namespace E9Patch
open Bytes Binary Fallible

/-! ### A sample run -/

/-- `push %rbp; mov %rsp,%rbp; xor %eax,%eax; pop %rbp; retq`. -/
def sampleFile : File :=
  { size := 64
    bytes := fun p => byteAt [0x55, 0x48, 0x89, 0xe5, 0x31, 0xc0, 0x5d, 0xc3] p
    pic := true, segments := [(0x400000, 0x401000)], image_size := 0 }

def sampleTemplate : Template := ⟨0, [.INSTR, .BREAK false]⟩

/-- The instructions arrive, and the two in the middle are queued. -/
def sampleMessages : Except Fault Binary := do
  let B ← parseBinary sampleFile .ELF_EXE defaultOptions none
  [.instruction [0x400007] [1] [7], .instruction [0x400006] [1] [6], .instruction [0x400004] [2] [4],
    .instruction [0x400001] [3] [1], .patch [sampleTemplate] [4] [],
    .patch [sampleTemplate] [1] []].foldlM parseMessage B

/-- The `xor` is patched, and the `mov` taken off the queue. -/
def sampleRun : Except Fault Binary := do
  let B ← sampleMessages
  let B ← unqueue 2 B
  let r ← Binary.patch 2 (.user sampleTemplate) B
  unqueue 3 r.1

def sampleBinary : Binary := sampleRun.toOption.getD (newBinary sampleFile .ELF_EXE defaultOptions)

theorem ok_getD {α : Type} {x : Except Fault α} {d : α} (h : x.toOption.isSome = true) :
    x = .ok (x.toOption.getD d) := by
  cases x with
  | error e => cases h
  | ok a => rfl

theorem sample_reachable : Reachable sampleBinary := by
  have h : sampleRun = .ok sampleBinary := ok_getD (by decide +kernel)
  obtain ⟨B₁, h₁, h⟩ := bind_ok.mp h
  obtain ⟨B₂, h₂, h⟩ := bind_ok.mp h
  obtain ⟨r, hr, h⟩ := bind_ok.mp h
  have hc₁ : B₁.count = 4 := by
    have hcount : sampleMessages.toOption.map (·.count) = some 4 := by decide +kernel
    rw [h₁] at hcount
    exact Option.some.inj hcount
  obtain ⟨B₀, h₀, h₁⟩ := bind_ok.mp h₁
  have hB₁ : Reachable B₁ := reachable_of_messages h₀ h₁
  have hs₂ : Step B₁ B₂ := .dequeue 2 (by omega) h₂
  have hc₂ := (hs₂.ok hB₁.invariant.wellFormed).count
  have hB₂ := hB₁.step hs₂
  have hs₃ : Step B₂ r.1 := .patch 2 sampleTemplate (by omega) hr
  have hc₃ := (hs₃.ok hB₂.invariant.wellFormed).count
  exact (hB₂.step hs₃).step (.dequeue 3 (by omega) h)

/-! ### Protected bytes -/

/-- **Protected bytes stay.** A call of `patch`, and anything else that happens later in a run, leaves the
value of a patched or locked byte alone, and the byte patched or locked. -/
theorem protected_bytes_stay {B : Binary} (hB : Reachable B) {p : Nat} (hp : Protected (B.state p)) :
    (∀ I T B' tactic, I < B.count → Binary.patch I (.user T) B = .ok (B', tactic) →
      B'.bytes p = B.bytes p ∧ Protected (B'.state p)) ∧
    ∀ B', Runs B B' → B'.bytes p = B.bytes p ∧ Protected (B'.state p) := by
  have hi := hB.invariant
  refine ⟨fun I T B' tactic hI h => ?_, fun B' h => ?_⟩
  · exact ((patch_step hi.wellFormed hI h).evolves p).guarded hp
  · exact (h.evolves hi p).guarded hp

/-- The opcode of the jump at the `xor` is still there when the `mov` has been patched. -/
theorem sample_stays : sampleBinary.bytes 4 = 0xE9 ∧
    ∀ B' tactic, Binary.patch 3 (.user sampleTemplate) sampleBinary = .ok (B', tactic) →
      B'.bytes 4 = 0xE9 := by
  have hbyte : sampleBinary.bytes 4 = 0xE9 := by decide +kernel
  refine ⟨hbyte, fun B' tactic h => ?_⟩
  have hp : Protected (sampleBinary.state 4) := by decide +kernel
  rw [((protected_bytes_stay sample_reachable hp).1 3 _ B' tactic (by decide +kernel) h).1, hbyte]

/-! ### Failures -/

/-- **Failures are atomic.** When `patch` fails, or any of the tactics does, bytes, states, instructions,
entry points and traps are as before, and so is the set of allocations. -/
theorem failure_is_atomic {B : Binary} (hB : Reachable B) :
    (∀ I T B', I < B.count → Binary.patch I (.user T) B = .ok (B', none) → Unchanged B B') ∧
    ∀ r, TacticCall B r → r.2 = [] → Unchanged B r.1 := by
  have hw := hB.invariant.wellFormed
  refine ⟨fun I T B' hI h => ?_, fun r hr => (hr.spec hw).2⟩
  rcases patch_spec hw hI h with ⟨-, hu⟩ | ⟨C, P, Ps, hsome, -, -⟩
  · exact hu
  · cases hsome

/-- There is nothing to evict behind the last instruction, so that T2 fails. -/
theorem sample_fails : ∃ r, tactic_T2 1 (.user sampleTemplate) sampleBinary = .ok r ∧
    Unchanged sampleBinary r.1 := by
  have hok : (tactic_T2 1 (.user sampleTemplate) sampleBinary).toOption.map (·.2.isEmpty) = some true := by
    decide +kernel
  obtain ⟨r, hr⟩ : ∃ r, tactic_T2 1 (.user sampleTemplate) sampleBinary = .ok r :=
    ⟨_, ok_getD (d := (sampleBinary, [])) (by decide +kernel)⟩
  rw [hr] at hok
  exact ⟨r, hr, (failure_is_atomic sample_reachable).2 r (.T2 1 sampleTemplate (by decide +kernel) hr)
    (List.isEmpty_iff.mp (Option.some.inj hok))⟩

/-! ### Successes -/

/-- A decoded jump, with its target. -/
inductive Jump where
  | rel8 (target : Int)
  | rel32 (target : Int)
  deriving DecidableEq, Repr

/-- Decodes a jump at byte `p`, whose address is `addr`, behind at most `pres` redundant prefixes. -/
def decodeJump (m : Nat → UInt8) : Nat → Nat → Int → Option Jump
  | pres, p, addr =>
    if m p = 0xE9 then some (.rel32 (addr + 5 + word32 (word m (p + 1)) 0))
    else if m p = 0xEB then some (.rel8 (addr + 2 + signed8 (m (p + 1)).toNat))
    else match pres with
      | 0 => none
      | pres + 1 => if m p ∈ prefixes then decodeJump m pres (p + 1) (addr + 1) else none

/-- From the instruction, a jump leads to `entry`, or a short jump to a jump that does. -/
def LeadsTo (B : Binary) (I : Nat) (entry : Int) : Prop :=
  decodeJump B.bytes 3 (B.Is I).offset (B.Is I).addr = some (.rel32 entry) ∨
  ∃ J i, i < (B.Is J).size ∧
    decodeJump B.bytes 0 (B.Is I).offset (B.Is I).addr = some (.rel8 ((B.Is J).addr + (i : Nat))) ∧
    decodeJump B.bytes 0 ((B.Is J).offset + i) ((B.Is J).addr + i) = some (.rel32 entry)

theorem decodeJump_rel32 {m : Nat → UInt8} {pres p : Nat} {addr : Int} (h : m p = 0xE9) :
    decodeJump m pres p addr = some (.rel32 (addr + 5 + word32 (word m (p + 1)) 0)) := by
  cases pres <;> rw [decodeJump, if_pos h]

theorem decodeJump_rel8 {m : Nat → UInt8} {pres p : Nat} {addr : Int} (h : m p = 0xEB) :
    decodeJump m pres p addr = some (.rel8 (addr + 2 + signed8 (m (p + 1)).toNat)) := by
  have hne : m p ≠ 0xE9 := by
    rw [h]
    decide
  cases pres <;> rw [decodeJump, if_neg hne, if_pos h]

theorem prefixes_not_jump {b : UInt8} (h : b ∈ prefixes) : b ≠ 0xE9 ∧ b ≠ 0xEB := by
  simp only [prefixes, List.mem_cons, List.not_mem_nil, or_false] at h
  rcases h with rfl | rfl | rfl | rfl <;> decide

/-- The prefixes are skipped. -/
theorem decodeJump_skip {m : Nat → UInt8} {pre pres p : Nat} {addr : Int} (hle : pre ≤ pres)
    (hpre : ∀ i < pre, m (p + i) ∈ prefixes) :
    decodeJump m pres p addr = decodeJump m (pres - pre) (p + pre) (addr + pre) := by
  induction pre generalizing pres p addr with
  | zero => simp
  | succ pre ih =>
      obtain ⟨n, rfl⟩ : ∃ n, pres = n + 1 := ⟨pres - 1, by omega⟩
      have h0 := hpre 0 (by omega)
      rw [Nat.add_zero] at h0
      obtain ⟨h1, h2⟩ := prefixes_not_jump h0
      rw [decodeJump, if_neg h1, if_neg h2]
      simp only [if_pos h0]
      rw [ih (by omega) fun i hi => by
        rw [show p + 1 + i = p + (i + 1) from by omega]
        exact hpre (i + 1) (by omega)]
      congr 1
      · omega
      · omega
      · push_cast
        omega

/-- A jump that was placed is decoded. -/
theorem Jumps.decode {B : Binary} {I offset pres : Nat} {entry : Int} (h : Jumps B I offset entry) :
    decodeJump B.bytes pres ((B.Is I).offset + offset) ((B.Is I).addr + offset) =
      some (.rel32 entry) := by
  have hop : B.bytes ((B.Is I).offset + offset) = 0xE9 := h.opcode
  rw [decodeJump_rel32 hop, h.rel32]
  congr 2
  simp only [JMP_SIZE]
  omega

theorem byteAt_prefixes : ∀ i < 3, byteAt prefixes i ∈ prefixes := by decide

theorem Redirects.leadsTo {B : Binary} {I : Nat} {T : Trampoline} (h : Redirects B I T) :
    ∃ A, Live B.allocator A ∧ (B.alloc A).I = some I ∧ (B.alloc A).T = some T ∧
      decodeJump B.bytes 3 (B.Is I).offset (B.Is I).addr = some (.rel32 (B.entry A)) := by
  obtain ⟨A, pre, hl, hI, hT, hpre, hb, hj⟩ := h
  refine ⟨A, hl, hI, hT, ?_⟩
  rw [decodeJump_skip hpre fun i hi => by
    rw [show B.bytes ((B.Is I).offset + i) = byteAt prefixes i from (hb i hi).1]
    exact byteAt_prefixes i (by omega)]
  exact hj.decode

theorem Hops.leadsTo {B : Binary} {I : Nat} {T : Trampoline} (h : Hops B I T) :
    ∃ A, Live B.allocator A ∧ (B.alloc A).I = some I ∧ (B.alloc A).T = some T ∧
      LeadsTo B I (B.entry A) := by
  obtain ⟨A, J, i, hl, hI, hT, hop, -, -, hi, htarget, hj⟩ := h
  refine ⟨A, hl, hI, hT, Or.inr ⟨J, i, hi, ?_, hj.decode⟩⟩
  have hop' : B.bytes (B.Is I).offset = 0xEB := hop
  rw [decodeJump_rel8 hop', ← htarget]
  rfl

/-- What is reached after a success, by the tactics that put a jump to a trampoline of its own. -/
theorem Reaches.leadsTo {B : Binary} {I : Nat} {T : Trampoline} {tactic : Tactic}
    (h : Reaches B I T tactic) (ht : tactic ∈ [Tactic.B1, .B2, .T1, .T2, .T3]) (hsize : 2 ≤ (B.Is I).size) :
    ∃ A, Live B.allocator A ∧ (B.alloc A).I = some I ∧ (B.alloc A).T = some T ∧
      LeadsTo B I (B.entry A) := by
  have hred : Redirects B I T → ∃ A, Live B.allocator A ∧ (B.alloc A).I = some I ∧
      (B.alloc A).T = some T ∧ LeadsTo B I (B.entry A) := fun hr => by
    obtain ⟨A, hl, hI, hT, hd⟩ := hr.leadsTo
    exact ⟨A, hl, hI, hT, Or.inl hd⟩
  cases tactic with
  | B0 => exact absurd ht (by decide)
  | B1 => exact hred h
  | B2 => exact hred h
  | T0 => exact absurd ht (by decide)
  | T1 => exact hred h
  | T2 => exact hred h.1
  | T3 => exact (h hsize).leadsTo

/-- **Successes reach the trampoline.** After a success by B1, B2, T1, T2, or by T3 for an instruction of
two bytes at least, the bytes of the instruction lead to the entry of its allocation, and those of each
instruction that was evicted for it, among them the successor in T2, to the entry of theirs. -/
theorem success_reaches_trampoline {B B' : Binary} {I : Nat} {T : Template} {tactic : Tactic}
    (hB : Reachable B) (hI : I < B.count) (ht : tactic ∈ [Tactic.B1, .B2, .T1, .T2, .T3])
    (hsize : 2 ≤ (B.Is I).size) (h : Binary.patch I (.user T) B = .ok (B', some tactic)) :
    (∃ A, Live B'.allocator A ∧ (B'.alloc A).I = some I ∧ (B'.alloc A).T = some (.user T) ∧
      LeadsTo B' I (B'.entry A)) ∧
    (∀ k < B.count, (B.Is k).is_evicted = false → (B'.Is k).is_evicted = true →
      ∃ A, Live B'.allocator A ∧ (B'.alloc A).I = some k ∧ (B'.alloc A).T = some evicteeTrampoline ∧
        decodeJump B'.bytes 3 (B'.Is k).offset (B'.Is k).addr = some (.rel32 (B'.entry A))) ∧
    (tactic = .T2 → ∃ J, B.succ I = some J ∧ ∃ A, Live B'.allocator A ∧ (B'.alloc A).I = some J ∧
      (B'.alloc A).T = some evicteeTrampoline ∧
      decodeJump B'.bytes 3 (B'.Is J).offset (B'.Is J).addr = some (.rel32 (B'.entry A))) := by
  have hw := hB.invariant.wellFormed
  rcases patch_spec hw hI h with ⟨hnone, -⟩ | ⟨C, P, Ps, htac, hs, rfl⟩
  · cases hnone
  · obtain rfl : tactic = P.tactic := Option.some.inj htac
    obtain ⟨Es, Traps, hC⟩ := commit_frame C (P :: Ps)
    have hreach : Reaches C I (.user T) P.tactic := hs.reaches P rfl
    rw [hC]
    refine ⟨?_, fun k hk hold hnew => ?_, fun hT2 => ?_⟩
    · exact hreach.leadsTo ht (by rwa [(hs.progress.instrs I).fields.2.1])
    · rcases hs.evicts k hk hnew with hev | ⟨-, hred⟩
      · rw [hold] at hev
        cases hev
      · exact hred.leadsTo
    · rw [hT2] at hreach
      obtain ⟨-, J, hJ, hred⟩ := hreach
      exact ⟨J, by rw [← hJ, hs.progress.succ], hred.leadsTo⟩

/-- The `mov` is patched by B2. -/
theorem sample_reaches : ∃ B', Binary.patch 3 (.user sampleTemplate) sampleBinary = .ok (B', some .B2) ∧
    ∃ A, Live B'.allocator A ∧ (B'.alloc A).I = some 3 ∧
      (B'.alloc A).T = some (.user sampleTemplate) ∧ LeadsTo B' 3 (B'.entry A) := by
  have hok : (Binary.patch 3 (.user sampleTemplate) sampleBinary).toOption.map (·.2) = some (some .B2) := by
    decide +kernel
  obtain ⟨⟨B', o⟩, hr⟩ : ∃ r, Binary.patch 3 (.user sampleTemplate) sampleBinary = .ok r :=
    ⟨_, ok_getD (d := (sampleBinary, none)) (by decide +kernel)⟩
  rw [hr] at hok
  obtain rfl : o = some .B2 := Option.some.inj hok
  exact ⟨B', hr, (success_reaches_trampoline sample_reachable (by decide +kernel) (by decide)
    (by decide +kernel) hr).1⟩

end E9Patch
