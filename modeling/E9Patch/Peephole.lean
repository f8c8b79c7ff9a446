import E9Patch.ApiModel

/-!
The optimization of jumps before emission: a direct jump or call to a patched instruction goes to the
trampoline at once. The jumps that were saved from trampolines lie outside of the binary, and are left out.
-/

namespace E9Patch
open Bytes Binary

namespace Binary

/-- The bytes at `I->PATCH`. -/
def PATCHED (B : Binary) (k : Nat) : List UInt8 := (List.range (B.Is k).size).map (B.PATCH k)

def setBytes (B : Binary) (p : Nat) (bytes : List UInt8) : Binary :=
  { B with bytes := fun q => if p ≤ q ∧ q < p + bytes.length then byteAt bytes (q - p) else B.bytes q }

end Binary

/-- The loop of `findInstr` over addresses. -/
def findAddrLoop (B : Binary) (addr : Int) : Nat → Int → Int → Option Nat
  | 0, _, _ => none
  | fuel + 1, lo, hi =>
    if lo > hi then none
    else
      let mid := (lo + hi) / 2
      let k := (B.count - 1 - mid).toNat
      if addr > (B.Is k).addr then findAddrLoop B addr fuel (mid + 1) hi
      else if addr < (B.Is k).addr then findAddrLoop B addr fuel lo (mid - 1)
      else some k

/-- Find the instruction at the given address. -/
def findInstrAddr (B : Binary) (addr : Int) : Option Nat :=
  findAddrLoop B addr (B.count + 1) 0 (B.count - 1)

/-- Get the corresponding trampoline entry if it exists, else `INTPTR_MIN`. -/
def getTrampolineEntry (Es : EntrySet) (addr : Int) : Int :=
  match EntrySet.find Es addr with
  | none => INTPTR_MIN
  | some E => E.entry

/-- Where the displacement of a direct jump or call is, if it has 32 bits. -/
def rel32Index (bytes : List UInt8) : Option Nat :=
  let opcode := byteAt bytes 0
  if opcode = 0xE8 ∨ opcode = 0xE9 then if bytes.length ≠ 5 then none else some 1
  else if opcode = 0x0F then if bytes.length ≠ 6 ∨ !isJcc32 (byteAt bytes 1) then none else some 2
  else none

/-- The trampoline of an instruction, or else where its jump goes. -/
def jumpEntry (B : Binary) (J : Nat) : Option Int :=
  let target := getTrampolineEntry B.Es (B.Is J).addr
  if target ≠ INTPTR_MIN then some target
  else getCFTTarget (B.Is J).addr (B.PATCHED J) ⟨false, false, true, false⟩

def jumpNop : List UInt8 := [0x0F, 0x1F, 0x44, 0x00, 0x00]

/-- Optimize a jump (or call) instruction. -/
def optimizeJump (B : Binary) (addr : Int) (bytes : List UInt8) : List UInt8 :=
  let size := bytes.length
  if !B.options.option_Opeephole ∨ size = 0 then bytes
  else match rel32Index bytes with
    | none => bytes
    | some i =>
      match (findInstrAddr B (addr + size + word32 bytes i)).bind (jumpEntry B) with
      | none => bytes
      | some target =>
        let diff := target - (addr + size)
        if byteAt bytes 0 = 0xE9 ∧ diff = 0 then jumpNop
        else if diff < INT32_MIN ∨ diff > INT32_MAX then bytes
        else bytes.take i ++ le32 diff

/-- The loop of `optimizeAllJumps` over the instructions. -/
def optimizeInstr (B : Binary) (I : Nat) : Binary :=
  if (B.Is I).is_patched then B
  else if ¬∀ i < (B.Is I).size, B.STATE I i = STATE_INSTRUCTION then B
  else B.setBytes (B.Is I).offset (optimizeJump B (B.Is I).addr (B.PATCHED I))

/-- Optimize all jumps in the binary. -/
def optimizeAllJumps (B : Binary) : Binary :=
  if !B.options.option_Opeephole then B else (List.range B.count).reverse.foldl optimizeInstr B

/-! ### What the optimization changes -/

/-- What may become of the bytes of an instruction: the displacement of a direct jump or call is another
one, or a jump to the next instruction becomes a `nop`. -/
def Retargeted (bytes bytes' : List UInt8) : Prop :=
  ∃ i diff, rel32Index bytes = some i ∧
    (bytes' = bytes.take i ++ le32 diff ∨ byteAt bytes 0 = 0xE9 ∧ bytes' = jumpNop)

theorem rel32Index_length {bytes : List UInt8} {i : Nat} (h : rel32Index bytes = some i) :
    bytes.length = i + 4 ∧ (byteAt bytes 0 = 0xE9 → i = 1) := by
  unfold rel32Index at h
  by_cases h1 : byteAt bytes 0 = 0xE8 ∨ byteAt bytes 0 = 0xE9
  · rw [if_pos h1] at h
    split at h
    · cases h
    · cases h
      exact ⟨by omega, fun _ => rfl⟩
  · rw [if_neg h1] at h
    refine ⟨?_, fun he => absurd (Or.inr he) h1⟩
    split at h
    · split at h
      · cases h
      · cases h
        omega
    · cases h

theorem Retargeted.length {bytes bytes' : List UInt8} (h : Retargeted bytes bytes') :
    bytes'.length = bytes.length := by
  obtain ⟨i, diff, hi, h⟩ := h
  obtain ⟨hlen, hjmp⟩ := rel32Index_length hi
  rcases h with rfl | ⟨h0, rfl⟩
  · rw [List.length_append, List.length_take, le32_length, hlen]
    omega
  · rw [hlen, hjmp h0]
    rfl

theorem optimizeJump_retargets (B : Binary) (addr : Int) (bytes : List UInt8) :
    optimizeJump B addr bytes = bytes ∨ Retargeted bytes (optimizeJump B addr bytes) := by
  unfold optimizeJump
  simp only
  split
  · exact Or.inl rfl
  · cases hi : rel32Index bytes with
    | none => exact Or.inl rfl
    | some i =>
        simp only
        split
        · exact Or.inl rfl
        · rename_i target _
          split
          · rename_i h
            exact Or.inr ⟨i, 0, hi, Or.inr ⟨h.1, rfl⟩⟩
          · split
            · exact Or.inl rfl
            · exact Or.inr ⟨i, _, hi, Or.inl rfl⟩

theorem optimizeJump_length (B : Binary) (addr : Int) (bytes : List UInt8) :
    (optimizeJump B addr bytes).length = bytes.length := by
  rcases optimizeJump_retargets B addr bytes with h | h
  · rw [h]
  · exact h.length

section
variable (B : Binary) (I : Nat)

@[simp] theorem PATCHED_length : (B.PATCHED I).length = (B.Is I).size := by simp [PATCHED]

theorem setBytes_bytes {p i : Nat} {bytes : List UInt8} (h : i < bytes.length) :
    (B.setBytes p bytes).bytes (p + i) = bytes[i] := by
  show (if p ≤ p + i ∧ p + i < p + bytes.length then byteAt bytes (p + i - p) else _) = _
  rw [if_pos ⟨Nat.le_add_right .., Nat.add_lt_add_left h _⟩, Nat.add_sub_cancel_left]
  simp [byteAt, List.getD, h]

variable {B I} in
theorem setBytes_PATCHED {bytes : List UInt8} (hlen : bytes.length = (B.Is I).size) :
    (B.setBytes (B.Is I).offset bytes).PATCHED I = bytes := by
  refine List.ext_getElem ?_ fun i h1 h2 => ?_
  · rw [hlen]
    exact PATCHED_length _ I
  · simp only [PATCHED, List.getElem_map, List.getElem_range]
    exact setBytes_bytes B h2

theorem optimizeInstr_frame : ∃ bytes, optimizeInstr B I = { B with bytes := bytes } := by
  unfold optimizeInstr
  split
  · exact ⟨B.bytes, rfl⟩
  · split
    · exact ⟨B.bytes, rfl⟩
    · exact ⟨_, rfl⟩

/-- A byte changes only in an instruction that was not patched, and is not locked. -/
theorem optimizeInstr_bytes {q : Nat} (h : (optimizeInstr B I).bytes q ≠ B.bytes q) :
    (B.Is I).offset ≤ q ∧ q < (B.Is I).offset + (B.Is I).size ∧ B.state q = STATE_INSTRUCTION := by
  unfold optimizeInstr at h
  split at h
  · exact absurd rfl h
  · split at h
    · exact absurd rfl h
    · rename_i hplain
      have hstate := Classical.not_not.mp hplain
      by_cases hin : (B.Is I).offset ≤ q ∧ q < (B.Is I).offset + (optimizeJump B (B.Is I).addr (B.PATCHED I)).length
      · rw [optimizeJump_length, PATCHED_length] at hin
        refine ⟨hin.1, hin.2, ?_⟩
        have hs := hstate (q - (B.Is I).offset) (by omega)
        rwa [STATE, show (B.Is I).offset + (q - (B.Is I).offset) = q by omega] at hs
      · exact absurd (if_neg hin) h

/-- The bytes of the instruction itself. -/
theorem optimizeInstr_own : (optimizeInstr B I).PATCHED I = B.PATCHED I ∨
    Retargeted (B.PATCHED I) ((optimizeInstr B I).PATCHED I) := by
  unfold optimizeInstr
  split
  · exact Or.inl rfl
  · split
    · exact Or.inl rfl
    · have hlen := (optimizeJump_length B (B.Is I).addr (B.PATCHED I)).trans (PATCHED_length B I)
      have hself := setBytes_PATCHED hlen
      rw [hself]
      exact optimizeJump_retargets B (B.Is I).addr (B.PATCHED I)

end

/-- What the optimization of the instructions in a list leaves, and what it makes of them. -/
structure Optimizes (l : List Nat) (B B' : Binary) : Prop where
  frame : B' = { B with bytes := B'.bytes }
  bytes : ∀ q, B'.bytes q ≠ B.bytes q → B.state q = STATE_INSTRUCTION ∧
    ∃ k ∈ l, (B.Is k).offset ≤ q ∧ q < (B.Is k).offset + (B.Is k).size
  own : ∀ k ∈ l, B'.PATCHED k = B.PATCHED k ∨ Retargeted (B.PATCHED k) (B'.PATCHED k)

theorem PATCHED_congr {B B' : Binary} {k : Nat} (hIs : B'.Is k = B.Is k)
    (h : ∀ i < (B.Is k).size, B'.bytes ((B.Is k).offset + i) = B.bytes ((B.Is k).offset + i)) :
    B'.PATCHED k = B.PATCHED k := by
  rw [PATCHED, PATCHED, hIs]
  refine List.map_congr_left fun i hi => ?_
  rw [PATCH, PATCH, hIs]
  exact h i (List.mem_range.mp hi)

/-- No instruction is optimized twice, and the instructions do not overlap. -/
theorem optimize_fold {B : Binary} (hapart : ∀ j k, j < k → k < B.count →
    (B.Is k).offset + (B.Is k).size ≤ (B.Is j).offset) (l : List Nat) (hl : l.Nodup) (hc : ∀ k ∈ l, k < B.count) :
    Optimizes l B (l.foldl optimizeInstr B) := by
  induction l generalizing B with
  | nil => exact ⟨rfl, fun q hq => absurd rfl hq, fun k hk => by cases hk⟩
  | cons I l ih =>
      rw [List.nodup_cons] at hl
      obtain ⟨bytes, hB⟩ := optimizeInstr_frame B I
      have hstep := optimizeInstr_own B I
      have hchange := fun q => optimizeInstr_bytes B I (q := q)
      rw [List.foldl_cons]
      rw [hB] at hstep hchange ⊢
      have hrest := ih (B := { B with bytes := bytes }) hapart hl.2 fun k hk => hc k (List.mem_cons_of_mem _ hk)
      have hI := hc I (List.mem_cons_self ..)
      -- an instruction shares no byte with another one
      have hother : ∀ j k, j ≠ k → j < B.count → k < B.count → ∀ q, (B.Is j).offset ≤ q →
          q < (B.Is j).offset + (B.Is j).size → (B.Is k).offset ≤ q →
          ¬q < (B.Is k).offset + (B.Is k).size := by
        intro j k hne hj hk q h1 h2 h3 h4
        rcases Nat.lt_or_gt_of_ne hne with hlt | hlt
        · have := hapart j k hlt hk
          omega
        · have := hapart k j hlt hj
          omega
      refine ⟨?_, fun q hq => ?_, fun k hk => ?_⟩
      · rw [hrest.frame]
      · by_cases hlater : (l.foldl optimizeInstr { B with bytes := bytes }).bytes q = bytes q
        · obtain ⟨h1, h2, h3⟩ := hchange q (by rwa [hlater] at hq)
          exact ⟨h3, I, List.mem_cons_self .., h1, h2⟩
        · obtain ⟨hs, k, hk, hin⟩ := hrest.bytes q hlater
          exact ⟨hs, k, List.mem_cons_of_mem _ hk, hin⟩
      · rcases List.mem_cons.mp hk with rfl | hk
        · have hlater : (l.foldl optimizeInstr { B with bytes := bytes }).PATCHED k =
              ({ B with bytes := bytes } : Binary).PATCHED k := by
            refine PATCHED_congr (by rw [hrest.frame]) fun i hi => ?_
            by_contra hne
            obtain ⟨-, j, hj, h1, h2⟩ := hrest.bytes _ hne
            have hjk : j ≠ k := fun he => hl.1 (he ▸ hj)
            exact hother j k hjk (hc j (List.mem_cons_of_mem _ hj)) hI _ h1 h2 (by simp) (by simpa using hi)
          rw [hlater]
          exact hstep
        · have hne : I ≠ k := fun he => hl.1 (he ▸ hk)
          have hkc := hc k (List.mem_cons_of_mem _ hk)
          have hnow : ({ B with bytes := bytes } : Binary).PATCHED k = B.PATCHED k := by
            refine PATCHED_congr rfl fun i hi => ?_
            by_contra hdiff
            obtain ⟨h1, h2, -⟩ := hchange _ hdiff
            exact hother I k hne hI hkc _ h1 h2 (Nat.le_add_right ..) (Nat.add_lt_add_left hi _)
          have hown := hrest.own k hk
          rwa [hnow] at hown

/-- The optimization of all jumps. -/
theorem optimizeAllJumps_optimizes {B : Binary} (hapart : ∀ j k, j < k → k < B.count →
    (B.Is k).offset + (B.Is k).size ≤ (B.Is j).offset) :
    Optimizes (List.range B.count) B (optimizeAllJumps B) ∧
      (B.options.option_Opeephole = false → optimizeAllJumps B = B) := by
  unfold optimizeAllJumps
  split
  · exact ⟨⟨rfl, fun q hq => absurd rfl hq, fun k _ => Or.inl rfl⟩, fun _ => rfl⟩
  · rename_i hon
    refine ⟨?_, fun hoff => absurd (by rw [hoff]; rfl) hon⟩
    have h := optimize_fold hapart (List.range B.count).reverse (List.nodup_reverse.mpr List.nodup_range)
      fun k hk => List.mem_range.mp (List.mem_reverse.mp hk)
    refine ⟨h.frame, fun q hq => ?_, fun k hk => h.own k (List.mem_reverse.mpr hk)⟩
    obtain ⟨hs, k, hk, hin⟩ := h.bytes q hq
    exact ⟨hs, k, List.mem_reverse.mp hk, hin⟩

end E9Patch
