import E9Patch.TrampolineModel
import E9Patch.X86PCRel

/-!
What `relocateInstr` emits, without the meaning of it: how many bytes, and where it gives up. The number
does not depend on the destination, and the relaxed relocation, which only asks for it, gives the same.
-/

namespace E9Patch
open Bytes X86

/-! ### Sizes -/

/-- Where `r` succeeds, `r₀` does, and it has as many bytes. -/
def Relocation.SizedBy (r r₀ : Relocation) : Prop := r.ok → r₀.ok ∧ r.bytes.length = r₀.bytes.length

theorem Relocation.sizedBy_refl (r : Relocation) : r.SizedBy r := fun h => ⟨h, rfl⟩

theorem fitsInt32_iff {x : Int} : fitsInt32 x = true ↔ -2 ^ 31 ≤ x ∧ x ≤ 2 ^ 31 - 1 := decide_eq_true_iff

theorem rewrite_ok {relax : Bool} {out : List UInt8} {diff : Int} {opcode rest : List UInt8} :
    (rewrite relax out diff opcode rest).ok ↔ relax = true ∨ fitsInt32 diff = true := by
  unfold rewrite Relocation.ok
  cases relax <;> cases fitsInt32 diff <;> simp

theorem rewrite_bytes {relax : Bool} {out : List UInt8} {diff : Int} {opcode rest : List UInt8}
    (h : (rewrite relax out diff opcode rest).ok) :
    (rewrite relax out diff opcode rest).bytes = out ++ opcode ++ le32 diff ++ rest := by
  unfold rewrite at h ⊢
  split
  · rename_i hf
    rw [if_pos hf] at h
    cases h
  · rfl

theorem rewrite_sizedBy {relax relax₀ : Bool} {out out₀ : List UInt8} {diff diff₀ : Int} {opcode rest : List UInt8}
    (hout : out.length = out₀.length) (hfits : relax₀ = true ∨ fitsInt32 diff₀ = true) :
    (rewrite relax out diff opcode rest).SizedBy (rewrite relax₀ out₀ diff₀ opcode rest) := by
  intro h
  have h₀ : (rewrite relax₀ out₀ diff₀ opcode rest).ok := rewrite_ok.mpr hfits
  refine ⟨h₀, ?_⟩
  rw [rewrite_bytes h, rewrite_bytes h₀]
  simp [hout]

/-- The displacement of the return address counts from what was pushed before it, which is as much at
every destination. -/
theorem pushReturnAddress_sizedBy (o : Options) (addr offset : Int) {size : Nat} (pic : Bool) (hsize : size ≤ 15) :
    (pushReturnAddress o addr offset size pic).SizedBy (pushReturnAddress o addr 0 size pic) := by
  intro h
  unfold pushReturnAddress at h ⊢
  simp only at h ⊢
  by_cases hcall : o.option_Ocall = true
  · rw [if_pos hcall, if_pos hcall]
    exact ⟨rfl, rfl⟩
  rw [if_neg hcall] at h
  rw [if_neg hcall, if_neg hcall]
  by_cases hpic : (!pic && fitsInt32 (addr + size)) = true
  · rw [if_pos hpic, if_pos hpic]
    exact ⟨rfl, rfl⟩
  rw [if_neg hpic] at h
  rw [if_neg hpic, if_neg hpic]
  have hnear : ∀ n : Nat, n ≤ 15 → (!fitsInt32 (addr + size - (addr + 0 + n + 7))) = false := by
    intro n hn
    rw [Bool.not_eq_false', fitsInt32_iff]
    omega
  by_cases hscratch : (!o.option_Oscratch_stack) = true
  · rw [if_pos hscratch] at h
    rw [if_pos hscratch, if_pos hscratch]
    split at h
    · cases h
    · rename_i hfit
      rw [if_neg hfit, hnear _ (by decide)]
      exact ⟨rfl, rfl⟩
  · rw [if_neg hscratch] at h
    rw [if_neg hscratch, if_neg hscratch]
    split at h
    · cases h
    · rename_i hfit
      rw [if_neg hfit, hnear _ (by decide)]
      exact ⟨rfl, rfl⟩

theorem relocateIndirectCall_sizedBy (o : Options) (addr offset : Int) {bytes : List UInt8} (pic : Bool)
    (rex : UInt8) (i : Nat) (hsize : bytes.length ≤ 15) :
    (relocateIndirectCall o addr offset bytes pic false rex i).SizedBy
      (relocateIndirectCall o addr 0 bytes pic true rex i) := by
  have hpush := pushReturnAddress_sizedBy o addr offset pic hsize
  unfold relocateIndirectCall
  simp only [Bool.not_false, Bool.and_true, Bool.not_true, Bool.and_false]
  cases hok : (pushReturnAddress o addr offset bytes.length pic).ok with
  | false =>
      intro h
      simp only [Bool.not_false, if_true, hok] at h
      cases h
  | true =>
      obtain ⟨-, hlen⟩ := hpush hok
      simp only [Bool.not_true, Bool.false_eq_true, if_false]
      -- both runs take the same branches, which depend on the bytes of the instruction only
      have hnormal : ∀ (b : UInt8) (t t₀ : Int), Relocation.SizedBy
          (if (byteAt bytes i &&& 0xc0) >>> 6 = 0x0 ∧ byteAt bytes i &&& 0x7 = 0x05 ∧ bytes.length - i - 1 ≥ 4 then
            rewrite false ((pushReturnAddress o addr offset bytes.length pic).bytes ++ bytes.take i ++ [b])
              t [] (bytes.drop (i + 1 + 4))
          else ⟨.rewritten, (pushReturnAddress o addr offset bytes.length pic).bytes ++ bytes.take i ++ [b] ++
            bytes.drop (i + 1)⟩)
          (if (byteAt bytes i &&& 0xc0) >>> 6 = 0x0 ∧ byteAt bytes i &&& 0x7 = 0x05 ∧ bytes.length - i - 1 ≥ 4 then
            rewrite true ((pushReturnAddress o addr 0 bytes.length pic).bytes ++ bytes.take i ++ [b])
              t₀ [] (bytes.drop (i + 1 + 4))
          else ⟨.rewritten, (pushReturnAddress o addr 0 bytes.length pic).bytes ++ bytes.take i ++ [b] ++
            bytes.drop (i + 1)⟩) := by
        intro b t t₀
        split
        · exact rewrite_sizedBy (by simp [hlen]) (Or.inl rfl)
        · exact fun _ => ⟨rfl, by simp [hlen]⟩
      split
      · split
        · nofun
        · exact hnormal _ _ _
      · split
        · exact hnormal _ _ _
        · split
          · exact hnormal _ _ _
          · split
            · exact hnormal _ _ _
            · rename_i disp _
              generalize (if (!o.option_Ocall) = true then signed32 (disp + 8) else disp) = d
              split
              · exact fun _ => ⟨rfl, by simp [hlen]⟩
              · split
                · exact fun _ => ⟨rfl, by simp [hlen]⟩
                · exact fun _ => ⟨rfl, by simp [hlen]⟩

theorem relocateGeneric_sizedBy (addr offset : Int) {bytes : List UInt8} (op : OpcodeInfo) :
    (relocateGeneric addr offset bytes op).SizedBy (relocateGeneric addr 0 bytes op) := by
  unfold relocateGeneric
  simp only
  split
  · exact Relocation.sizedBy_refl _
  split
  · exact Relocation.sizedBy_refl _
  split
  · refine rewrite_sizedBy rfl (Or.inr ?_)
    -- at the place itself the displacement is the old one
    have := signed32_range (uword32 bytes (op.i + 1))
    rw [fitsInt32_iff, word32]
    omega
  · exact Relocation.sizedBy_refl _

/-- A relocation that succeeds has as many bytes as the relaxed one, which succeeds too. -/
theorem relocate_sizedBy (o : Options) (addr offset : Int) {bytes : List UInt8} (pic : Bool)
    (hsize : bytes.length ≤ 15) :
    (relocate o addr offset bytes pic false).SizedBy (relocate o addr 0 bytes pic true) := by
  unfold relocate
  simp only
  split
  · exact Relocation.sizedBy_refl _
  split
  · exact relocateIndirectCall_sizedBy _ _ _ _ _ _ hsize
  split
  · exact rewrite_sizedBy rfl (Or.inl rfl)
  split
  · exact rewrite_sizedBy rfl (Or.inl rfl)
  split
  · exact rewrite_sizedBy rfl (Or.inl rfl)
  split
  · have hpush := pushReturnAddress_sizedBy o addr offset pic hsize
    cases hok : (pushReturnAddress o addr offset bytes.length pic).ok with
    | false =>
        intro h
        simp only [Bool.not_false, if_true, hok] at h
        cases h
    | true =>
        obtain ⟨hok₀, hlen⟩ := hpush hok
        simp only [hok₀, Bool.not_true, Bool.false_eq_true, if_false]
        exact rewrite_sizedBy hlen (Or.inl rfl)
  split
  · exact rewrite_sizedBy rfl (Or.inl rfl)
  split
  · exact rewrite_sizedBy rfl (Or.inl rfl)
  · exact relocateGeneric_sizedBy _ _ _

theorem rewrite_length_le (relax : Bool) (out : List UInt8) (diff : Int) (opcode rest : List UInt8) :
    (rewrite relax out diff opcode rest).bytes.length ≤ out.length + opcode.length + 4 + rest.length := by
  unfold rewrite
  split
  · simp only
    omega
  · simp only [List.length_append, le32_length]
    omega

theorem pushReturnAddress_length_le (o : Options) (addr offset : Int) (size : Nat) (pic : Bool) :
    (pushReturnAddress o addr offset size pic).bytes.length ≤ 24 := by
  unfold pushReturnAddress
  simp only
  split
  · simp
  split
  · simp
  split
  · split <;> simp
  · split <;> simp

theorem relocateIndirectCall_length_le (o : Options) (addr offset : Int) (bytes : List UInt8) (pic relax : Bool)
    (rex : UInt8) (i : Nat) :
    (relocateIndirectCall o addr offset bytes pic relax rex i).bytes.length ≤ bytes.length + 31 := by
  have hpush := pushReturnAddress_length_le o addr offset bytes.length pic
  unfold relocateIndirectCall
  simp only
  repeat' split
  all_goals first
    | refine Nat.le_trans (rewrite_length_le _ _ _ _ _) ?_
      simp only [List.length_append, List.length_take, List.length_drop, List.length_cons, List.length_nil]
      omega
    | simp only [List.length_append, List.length_take, List.length_drop, List.length_cons, List.length_nil,
        le32_length]
      omega
    | omega

/-- A relocation is not much longer than the instruction. -/
theorem relocate_length_le (o : Options) (addr offset : Int) (bytes : List UInt8) (pic relax : Bool) :
    (relocate o addr offset bytes pic relax).bytes.length ≤ bytes.length + 33 := by
  have hpush := pushReturnAddress_length_le o addr offset bytes.length pic
  unfold relocate
  simp only
  split
  · simp only
    omega
  split
  · exact Nat.le_trans (relocateIndirectCall_length_le _ _ _ _ _ _ _ _) (by omega)
  split
  · refine Nat.le_trans (rewrite_length_le _ _ _ _ _) ?_
    simp only [List.length_append, List.length_cons, List.length_nil]
    split
    · simp only [List.length_cons, List.length_nil]
      omega
    · simp only [List.length_nil]
      omega
  split
  · exact Nat.le_trans (rewrite_length_le _ _ _ _ _) (by simp)
  split
  · exact Nat.le_trans (rewrite_length_le _ _ _ _ _) (by simp)
  split
  · split
    · omega
    · refine Nat.le_trans (rewrite_length_le _ _ _ _ _) ?_
      simp only [List.length_cons, List.length_nil]
      omega
  split
  · exact Nat.le_trans (rewrite_length_le _ _ _ _ _) (by simp)
  split
  · exact Nat.le_trans (rewrite_length_le _ _ _ _ _) (by simp)
  · unfold relocateGeneric
    simp only
    split
    · simp only
      omega
    split
    · simp only
      omega
    split
    · refine Nat.le_trans (rewrite_length_le _ _ _ _ _) ?_
      simp only [List.length_take, List.length_drop, List.length_nil]
      omega
    · simp only
      omega

/-- The buffer behind a relocation that succeeds. -/
theorem relocateInstr_ok {o : Options} {addr offset : Int} {bytes : List UInt8} {pic relax : Bool} {buf : Buffer}
    (h : 0 ≤ (relocateInstr o addr offset bytes pic buf relax).1) :
    (relocate o addr offset bytes pic relax).ok ∧
      relocateInstr o addr offset bytes pic buf relax =
        (((relocate o addr offset bytes pic relax).bytes.length : Int),
          buf.push (relocate o addr offset bytes pic relax).bytes) := by
  unfold relocateInstr at h ⊢
  simp only at h ⊢
  cases hok : (relocate o addr offset bytes pic relax).ok with
  | false =>
      rw [hok, if_neg (by decide)] at h
      exact absurd h (by simp)
  | true =>
      rw [hok, if_pos rfl] at h
      refine ⟨rfl, ?_⟩
      rw [if_pos rfl]
      unfold Buffer.commit at h ⊢
      split
      · rename_i hmax
        rw [if_pos hmax] at h
        exact absurd h (by simp)
      · refine Prod.ext ?_ rfl
        simp only [Buffer.size, Buffer.push, List.length_append]
        omega

/-- The size that the relaxed relocation gives is never cut short by its buffer. -/
theorem relaxed_size (o : Options) (addr : Int) {bytes : List UInt8} (pic : Bool) (hsize : bytes.length ≤ 15)
    (hok : (relocate o addr 0 bytes pic true).ok) :
    (relocateInstr o addr 0 bytes pic ⟨[], UINT32_MAX⟩ true).1 = (relocate o addr 0 bytes pic true).bytes.length := by
  have hle := relocate_length_le o addr 0 bytes pic true
  unfold relocateInstr
  simp only
  rw [if_pos hok]
  unfold Buffer.commit
  rw [if_neg (by simp only [Buffer.size, Buffer.push, List.nil_append, UINT32_MAX]; omega)]
  simp [Buffer.size, Buffer.push]

/-- A relocation that succeeds emits as many bytes as the relaxed one says. -/
theorem relocateInstr_size {o : Options} {addr offset : Int} {bytes : List UInt8} {pic : Bool} {buf : Buffer}
    (hsize : bytes.length ≤ 15) (h : 0 ≤ (relocateInstr o addr offset bytes pic buf false).1) :
    (relocateInstr o addr offset bytes pic buf false).1 =
        (relocateInstr o addr 0 bytes pic ⟨[], UINT32_MAX⟩ true).1 ∧
      ((relocateInstr o addr offset bytes pic buf false).2.size : Int) =
        buf.size + (relocateInstr o addr offset bytes pic buf false).1 := by
  obtain ⟨hok, heq⟩ := relocateInstr_ok h
  obtain ⟨hok₀, hlen⟩ := relocate_sizedBy o addr offset pic hsize hok
  rw [relaxed_size o addr pic hsize hok₀, heq]
  refine ⟨by rw [hlen], ?_⟩
  simp only [Buffer.size, Buffer.push, List.length_append]
  omega

/-- The relaxed relocation of `relocateInstr(I, INTPTR_MIN)`. -/
theorem relocateSize_eq (B : Binary) (I : Nat) :
    relocateSize B I =
      (relocateInstr B.options (B.Is I).addr 0 (B.ORIG I) (B.Is I).pic ⟨[], UINT32_MAX⟩ true).1 := by
  unfold relocateSize relocateInstrTo
  simp only [if_true, decide_true]
  rw [signed32_eq (by decide) (by decide)]

theorem relocateInstrTo_eq (B : Binary) (I : Nat) {addr : Int} (buf : Buffer) (haddr : addr ≠ INTPTR_MIN) :
    relocateInstrTo B I addr buf =
      relocateInstr B.options (B.Is I).addr (signed32 (addr - (B.Is I).addr)) (B.ORIG I) (B.Is I).pic buf false := by
  unfold relocateInstrTo
  simp only [if_neg haddr, decide_eq_false haddr]

theorem ORIG_length (B : Binary) (I : Nat) : (B.ORIG I).length = (B.Is I).size := by
  simp [Binary.ORIG]

theorem relocateInstrTo_size {B : Binary} {I : Nat} {addr : Int} {buf : Buffer} (hsize : (B.Is I).size ≤ 15)
    (haddr : addr ≠ INTPTR_MIN) (h : 0 ≤ (relocateInstrTo B I addr buf).1) :
    (relocateInstrTo B I addr buf).1 = relocateSize B I ∧
      ((relocateInstrTo B I addr buf).2.size : Int) = buf.size + relocateSize B I := by
  rw [relocateInstrTo_eq B I buf haddr] at h ⊢
  obtain ⟨h1, h2⟩ := relocateInstr_size (by rwa [ORIG_length]) h
  rw [relocateSize_eq]
  exact ⟨h1, h1 ▸ h2⟩

/-- An instruction takes as many bytes at one destination as at another, and as many as the relaxed
relocation says. -/
theorem relocated_size {B : Binary} {I : Nat} {addr₁ addr₂ : Int} {buf₁ buf₂ : Buffer}
    (hsize : (B.Is I).size ≤ 15) (haddr₁ : addr₁ ≠ INTPTR_MIN) (haddr₂ : addr₂ ≠ INTPTR_MIN)
    (h₁ : 0 ≤ (relocateInstrTo B I addr₁ buf₁).1) (h₂ : 0 ≤ (relocateInstrTo B I addr₂ buf₂).1) :
    (relocateInstrTo B I addr₁ buf₁).1 = (relocateInstrTo B I addr₂ buf₂).1 ∧
    (relocateInstrTo B I addr₁ buf₁).1 = relocateSize B I ∧
    ((relocateInstrTo B I addr₁ buf₁).2.size : Int) = buf₁.size + relocateSize B I ∧
    ((relocateInstrTo B I addr₂ buf₂).2.size : Int) = buf₂.size + relocateSize B I := by
  obtain ⟨hr₁, hs₁⟩ := relocateInstrTo_size hsize haddr₁ h₁
  obtain ⟨hr₂, hs₂⟩ := relocateInstrTo_size hsize haddr₂ h₂
  exact ⟨hr₁.trans hr₂.symm, hr₁, hs₁, hs₂⟩

/-- A binary of one instruction. -/
def instrBinary (options : Options) (pic : Bool) (addr : Int) (bytes : List UInt8) : Binary :=
  { size := bytes.length, mode := .ELF_EXE, pic := pic, config := 0, original := byteAt bytes
    bytes := byteAt bytes, state := fun _ => STATE_INSTRUCTION, cursor := addr, Q := []
    Is := fun k => if k = 0 then { Instr.zero with size := bytes.length, pic := pic, addr := addr } else Instr.zero
    count := 1, Ts := [], Es := [], Traps := [], allocator := Tree.empty, targets := none, options := options }

/-- `callq 0x500000`. -/
def callBinary : Binary := instrBinary defaultOptions true 0x400000 [0xe8, 0xfb, 0xff, 0x0f, 0x00]

/-- A call becomes twelve bytes that push the return address and a jump of five, here and there. -/
theorem call_relocated_size :
    (relocateInstrTo callBinary 0 0x700000 ⟨[], 64⟩).1 = (relocateInstrTo callBinary 0 0x10000 ⟨[0x90], 32⟩).1 ∧
    (relocateInstrTo callBinary 0 0x700000 ⟨[], 64⟩).1 = relocateSize callBinary 0 ∧
    ((relocateInstrTo callBinary 0 0x700000 ⟨[], 64⟩).2.size : Int) = 0 + relocateSize callBinary 0 ∧
    ((relocateInstrTo callBinary 0 0x10000 ⟨[0x90], 32⟩).2.size : Int) = 1 + relocateSize callBinary 0 :=
  relocated_size (by decide) (by decide) (by decide) (by decide) (by decide)

end E9Patch
