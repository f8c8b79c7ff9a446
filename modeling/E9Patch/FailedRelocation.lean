import E9Patch.Fallible
import E9Patch.FlattenModel
import E9Patch.X86Relocate

/-!
What `relocateInstr` leaves behind where it fails, and where the callers go on. The cases of
`relocateInstr` differ in what they push before the check that can fail; `CopyShape` is what they have in
common.
-/

namespace E9Patch
open Bytes Fallible

/-! ### The shape of a copy -/

/-- What is built for an instruction: whether the return address is pushed first, whether it is the
`callq *%rsp` that is given up, the displacement that is rewritten, how much is pushed before that is
checked, and the length behind the return address. -/
structure CopyShape where
  ret : Bool
  rsp : Bool
  disp : Option Int
  before : Nat
  length : Nat
  deriving DecidableEq, Repr

/-- An operand with a 32-bit displacement from `%rip`, whose ModRM byte is at `i`. -/
def ripDisp (bytes : List UInt8) (i : Nat) : Option Int :=
  if (byteAt bytes i &&& 0xc0) >>> 6 = 0x0 ∧ byteAt bytes i &&& 0x7 = 0x05 ∧ bytes.length - i - 1 ≥ 4 then
    some (word32 bytes (i + 1))
  else none

/-- The size of a displacement in its shortest form. -/
def dispSize (disp : Int) : Nat := if disp = 0 then 0 else if fitsInt8 disp then 1 else 4

def indirectCallShape (o : Options) (bytes : List UInt8) (rex : UInt8) (i : Nat) : CopyShape :=
  let size := bytes.length
  let modRM := byteAt bytes i
  let mod := (modRM &&& 0xc0) >>> 6
  let rm := modRM &&& 0x7
  let b := rex &&& 0x1
  let normal : CopyShape := ⟨true, false, ripDisp bytes i, i + 1, size⟩
  if mod = 0x3 then ⟨true, decide (rm = 0x4 ∧ b = 0), none, i + 1, size⟩
  else if rm ≠ 0x4 ∨ size - i < 2 ∨ b ≠ 0 then normal
  else if byteAt bytes (i + 1) &&& 0x7 ≠ 0x4 then normal
  else
    match rspDisp bytes i mod with
    | none => normal
    | some disp =>
      ⟨true, false, none, i + 1, i + 2 + dispSize (if !o.option_Ocall then signed32 (disp + 8) else disp)⟩

def genericShape (bytes : List UInt8) (op : OpcodeInfo) : CopyShape :=
  let size := bytes.length
  if size - op.i < 5 ∨ op.encoding = .SINGLE_BYTE ∧ isMovImm op.opcode then ⟨false, false, none, 0, size⟩
  else ⟨false, false, ripDisp bytes op.i, 0, size⟩

def copyShape (o : Options) (bytes : List UInt8) : CopyShape :=
  let size := bytes.length
  let p := decodePrefix bytes
  match decodeOpcode bytes p.i with
  | none => ⟨false, false, none, 0, size⟩
  | some op =>
    let i := op.i
    let opcode := op.opcode
    if op.encoding = .SINGLE_BYTE ∧ opcode = 0xFF ∧ size - i ≥ 1 ∧
        (byteAt bytes i &&& 0x38) >>> 3 = 0x02 then indirectCallShape o bytes p.rex i
    else if op.encoding = .SINGLE_BYTE ∧ size - i = 1 ∧ opcode = 0xE3 then
      let before := (if p.addr32 then 1 else 0) + 4
      ⟨false, false, some (word8 bytes i), before, before + 5⟩
    else if op.encoding = .SINGLE_BYTE ∧ size - i = 1 ∧ opcode = 0xEB then
      ⟨false, false, some (word8 bytes i), 0, 5⟩
    else if op.encoding = .SINGLE_BYTE ∧ size - i = 1 ∧ isJcc8 opcode then
      ⟨false, false, some (word8 bytes i), 0, 6⟩
    else if op.encoding = .SINGLE_BYTE ∧ size - i = 4 ∧ opcode = 0xE8 then
      ⟨true, false, some (word32 bytes i), 0, 5⟩
    else if op.encoding = .SINGLE_BYTE ∧ size - i = 4 ∧ opcode = 0xE9 then
      ⟨false, false, some (word32 bytes i), 0, 5⟩
    else if op.encoding = .TWO_BYTES_0F ∧ size - i = 4 ∧ isJcc32 opcode then
      ⟨false, false, some (word32 bytes i), 0, 6⟩
    else genericShape bytes op

/-- The return address of the call fits the sequence that pushes it. -/
def ReturnReachable (o : Options) (addr offset : Int) (size : Nat) (pic : Bool) : Prop :=
  o.option_Ocall = true ∨ (pic = false ∧ fitsInt32 (addr + size) = true) ∨
    fitsInt32 (size - offset - ((if o.option_Oscratch_stack then 8 else 1) + 7)) = true

/-- The length of the sequence that pushes the return address. -/
def returnLength (o : Options) (addr : Int) (size : Nat) (pic : Bool) : Nat :=
  if o.option_Ocall then 0
  else if !pic && fitsInt32 (addr + size) then 5
  else if !o.option_Oscratch_stack then 12
  else 24

def CopyShape.returnLength (s : CopyShape) (o : Options) (addr : Int) (size : Nat) (pic : Bool) : Nat :=
  if s.ret then E9Patch.returnLength o addr size pic else 0

/-- The length of a copy. -/
def copyLength (o : Options) (addr : Int) (bytes : List UInt8) (pic : Bool) : Nat :=
  (copyShape o bytes).returnLength o addr bytes.length pic + (copyShape o bytes).length

/-- The operands of an instruction can be reached from its copy at `addr + offset`. -/
def CopyShape.Reaches (s : CopyShape) (o : Options) (addr offset : Int) (size : Nat) (pic : Bool) : Prop :=
  (s.ret = true → ReturnReachable o addr offset size pic) ∧
    ∀ d, s.disp = some d →
      fitsInt32 (addr + size + d - (addr + offset + s.returnLength o addr size pic + s.length)) = true

/-- The instruction can be relocated; that it can be reached does not matter where only the size is asked
for. -/
def CopyShape.Relocatable (s : CopyShape) (o : Options) (addr offset : Int) (size : Nat) (pic relax : Bool) : Prop :=
  s.rsp = false ∧ (relax = true ∨ s.Reaches o addr offset size pic)

/-- A copy without a return address and a displacement reaches nothing. -/
theorem CopyShape.Relocatable.plain {s : CopyShape} {o : Options} {addr offset : Int} {size : Nat} {pic relax : Bool}
    (hrsp : s.rsp = false) (hret : s.ret = false) (hdisp : s.disp = none) :
    s.Relocatable o addr offset size pic relax := by
  refine ⟨hrsp, Or.inr ⟨fun h => ?_, fun d h => ?_⟩⟩
  · rw [hret] at h
    cases h
  · rw [hdisp] at h
    cases h

/-- The case pushes something before its check: the sequence for the return address, prefixes or the
fixed part of a `jrcxz`. -/
def CopyShape.PushesFirst (s : CopyShape) (o : Options) : Prop :=
  (s.ret = true ∧ o.option_Ocall = false) ∨ 0 < s.before

/-! ### The cases -/

/-- A relocation that succeeds when `ok` holds and then has so many bytes, and which otherwise has
pushed nothing unless `dirty`. -/
structure Relocation.Built (r : Relocation) (ok : Prop) (length : Nat) (dirty : Prop) : Prop where
  ok_iff : r.ok = true ↔ ok
  length : r.ok = true → r.bytes.length = length
  pushed : r.ok = false → (r.bytes = [] ↔ ¬dirty)

theorem Relocation.Built.congr {r : Relocation} {ok ok' dirty dirty' : Prop} {length length' : Nat}
    (h : r.Built ok length dirty) (hok : ok ↔ ok') (hlen : length = length') (hdirty : dirty ↔ dirty') :
    r.Built ok' length' dirty' := by
  rw [propext hok, propext hdirty, hlen] at h
  exact h

theorem built_of_ok {r : Relocation} {ok dirty : Prop} (hr : r.ok = true) (hok : ok) :
    r.Built ok r.bytes.length dirty := by
  constructor
  · simp [hr, hok]
  · intro _
    rfl
  · intro hf
    rw [hr] at hf
    cases hf

theorem built_failed {out : List UInt8} {ok dirty : Prop} {length : Nat} (hok : ¬ok) (hdirty : out = [] ↔ ¬dirty) :
    (⟨.failed, out⟩ : Relocation).Built ok length dirty := by
  constructor
  · simp [Relocation.ok, hok]
  · intro h
    cases h
  · intro _
    exact hdirty

theorem rewrite_built (relax : Bool) (out : List UInt8) (diff : Int) (opcode rest : List UInt8) :
    (rewrite relax out diff opcode rest).Built (relax = true ∨ fitsInt32 diff = true)
      (out.length + opcode.length + 4 + rest.length) (out ≠ []) := by
  constructor
  · exact rewrite_ok
  · intro h
    rw [rewrite_bytes h]
    simp only [List.length_append, le32_length]
  · intro h
    have : rewrite relax out diff opcode rest = ⟨.failed, out⟩ := by
      unfold rewrite at h ⊢
      split
      · rfl
      · rename_i hfit
        rw [if_neg hfit] at h
        cases h
    rw [this]
    simp

theorem pushReturnAddress_built (o : Options) (addr offset : Int) (size : Nat) (pic : Bool) :
    (pushReturnAddress o addr offset size pic).Built (ReturnReachable o addr offset size pic)
      (returnLength o addr size pic) (o.option_Ocall = false) := by
  unfold pushReturnAddress ReturnReachable returnLength
  simp only
  by_cases hcall : o.option_Ocall = true
  · simp only [hcall, if_true]
    exact built_of_ok rfl (Or.inl trivial)
  have hcall' : o.option_Ocall = false := by simpa using hcall
  rw [if_neg hcall, if_neg hcall]
  by_cases hpic : (!pic && fitsInt32 (addr + size)) = true
  · rw [if_pos hpic, if_pos hpic]
    have h := Bool.and_eq_true_iff.mp hpic
    exact built_of_ok rfl (Or.inr (Or.inl ⟨by simpa using h.1, h.2⟩))
  rw [if_neg hpic, if_neg hpic]
  have hpic' : ¬(pic = false ∧ fitsInt32 (addr + size) = true) := by simpa using hpic
  have hdiff : ∀ n : Nat, addr + size - (addr + offset + n + 7) = size - offset - (n + 7) := by
    intro n
    omega
  cases hscratch : o.option_Oscratch_stack with
  | false =>
      simp only [Bool.not_false, if_true, hdiff]
      split
      · rename_i hfit
        refine built_failed ?_ (by simp [hcall'])
        simp only [hcall', Bool.false_eq_true, false_or, hpic']
        simpa using hfit
      · rename_i hfit
        refine built_of_ok rfl (Or.inr (Or.inr ?_))
        simpa using hfit
  | true =>
      simp only [Bool.not_true, Bool.false_eq_true, if_false, if_true, hdiff]
      split
      · rename_i hfit
        refine built_failed ?_ (by simp [hcall'])
        simp only [hcall', Bool.false_eq_true, false_or, hpic']
        simpa using hfit
      · rename_i hfit
        refine built_of_ok rfl (Or.inr (Or.inr ?_))
        simpa using hfit

/-- Where nothing but the size is asked for, the return address is as near as the instruction. -/
theorem returnReachable_zero (o : Options) (addr : Int) {size : Nat} (pic : Bool) (hsize : size ≤ 15) :
    ReturnReachable o addr 0 size pic := by
  refine Or.inr (Or.inr ?_)
  rw [fitsInt32_iff]
  split <;> omega

theorem ripDisp_iff {bytes : List UInt8} {i : Nat} {d : Int} : ripDisp bytes i = some d ↔
    ((byteAt bytes i &&& 0xc0) >>> 6 = 0x0 ∧ byteAt bytes i &&& 0x7 = 0x05 ∧ bytes.length - i - 1 ≥ 4) ∧
      word32 bytes (i + 1) = d := by
  unfold ripDisp
  split
  · rename_i h
    simp only [h, Option.some.injEq, true_and, and_self]
  · rename_i h
    simp only [h, false_and, reduceCtorEq]

/-- The normal case of an indirect call, with the return address pushed. -/
theorem normalCall_built {o : Options} {addr offset : Int} {bytes : List UInt8} {pic relax : Bool} {i : Nat}
    (hlt : i < bytes.length) (hret : ReturnReachable o addr offset bytes.length pic) {push : List UInt8}
    (hpush : push.length = returnLength o addr bytes.length pic) (modRM : UInt8) :
    Relocation.Built
      (if (byteAt bytes i &&& 0xc0) >>> 6 = 0x0 ∧ byteAt bytes i &&& 0x7 = 0x05 ∧ bytes.length - i - 1 ≥ 4 then
        rewrite relax (push ++ bytes.take i ++ [modRM])
          (addr + bytes.length + word32 bytes (i + 1) - (addr + offset + push.length + bytes.length)) []
          (bytes.drop (i + 1 + 4))
      else ⟨.rewritten, push ++ bytes.take i ++ [modRM] ++ bytes.drop (i + 1)⟩)
      (CopyShape.Relocatable ⟨true, false, ripDisp bytes i, i + 1, bytes.length⟩ o addr offset bytes.length pic relax)
      (returnLength o addr bytes.length pic + bytes.length)
      (CopyShape.PushesFirst ⟨true, false, ripDisp bytes i, i + 1, bytes.length⟩ o) := by
  have hdirty : CopyShape.PushesFirst ⟨true, false, ripDisp bytes i, i + 1, bytes.length⟩ o :=
    Or.inr (Nat.succ_pos i)
  split
  · rename_i hrip
    refine (rewrite_built _ _ _ _ _).congr ?_ ?_ (by simp [hdirty])
    · unfold CopyShape.Relocatable CopyShape.Reaches CopyShape.returnLength
      simp only [ripDisp_iff, hrip, hret, true_and, forall_eq', if_true, implies_true, hpush, and_self]
    · simp only [List.length_append, List.length_take, List.length_drop, List.length_cons, List.length_nil, hpush]
      omega
  · rename_i hrip
    refine (built_of_ok (r := ⟨.rewritten, _⟩) rfl ?_).congr Iff.rfl ?_ Iff.rfl
    · refine ⟨rfl, Or.inr ⟨fun _ => hret, ?_⟩⟩
      intro d hd
      exact absurd (ripDisp_iff.mp hd).1 hrip
    · simp only [List.length_append, List.length_take, List.length_drop, List.length_cons, List.length_nil, hpush]
      omega

theorem indirectCallShape_ret (o : Options) (bytes : List UInt8) (rex : UInt8) (i : Nat) :
    (indirectCallShape o bytes rex i).ret = true ∧ (indirectCallShape o bytes rex i).before = i + 1 := by
  unfold indirectCallShape
  simp only
  repeat' split
  all_goals exact ⟨rfl, rfl⟩

theorem relocateIndirectCall_built (o : Options) {addr offset : Int} {bytes : List UInt8} (pic : Bool)
    {relax : Bool} (rex : UInt8) {i : Nat} (hsize : bytes.length ≤ 15) (hi : 1 ≤ i) (hlt : i < bytes.length)
    (hrelax : relax = true → offset = 0) :
    (relocateIndirectCall o addr offset bytes pic relax rex i).Built
      ((indirectCallShape o bytes rex i).Relocatable o addr offset bytes.length pic relax)
      (returnLength o addr bytes.length pic + (indirectCallShape o bytes rex i).length)
      ((indirectCallShape o bytes rex i).PushesFirst o) := by
  have hpush := pushReturnAddress_built o addr offset bytes.length pic
  obtain ⟨hisret, hbefore⟩ := indirectCallShape_ret o bytes rex i
  have hdirty : (indirectCallShape o bytes rex i).PushesFirst o := Or.inr (by omega)
  unfold relocateIndirectCall
  simp only
  by_cases hok : (pushReturnAddress o addr offset bytes.length pic).ok = true
  · have hret := hpush.ok_iff.mp hok
    have hlen := hpush.length hok
    generalize pushReturnAddress o addr offset bytes.length pic = r at hok hlen
    rw [hok]
    simp only [Bool.not_true, Bool.false_and, Bool.false_eq_true, if_false]
    unfold indirectCallShape
    simp only
    split
    · split
      · rename_i hmod hrsp
        refine built_failed ?_ ?_
        · rintro ⟨h, -⟩
          exact absurd h (by simp [hrsp])
        · have : r.bytes ++ bytes.take i ≠ [] := by
            intro h
            have := congrArg List.length h
            simp only [List.length_append, List.length_take, List.length_nil] at this
            omega
          simp [this, CopyShape.PushesFirst]
      · rename_i hmod hrsp
        refine (normalCall_built hlt hret hlen _).congr ?_ rfl Iff.rfl
        have hrip : ripDisp bytes i = none := by
          unfold ripDisp
          rw [if_neg (by simp [hmod])]
        simp only [hrip, hrsp, decide_false]
    split
    · exact normalCall_built hlt hret hlen _
    split
    · exact normalCall_built hlt hret hlen _
    cases rspDisp bytes i ((byteAt bytes i &&& 0xc0) >>> 6) with
    | none => exact normalCall_built hlt hret hlen _
    | some disp =>
      simp only
      generalize (if (!o.option_Ocall) = true then signed32 (disp + 8) else disp) = d
      have hreloc : CopyShape.Relocatable ⟨true, false, none, i + 1, i + 2 + dispSize d⟩ o addr offset bytes.length
          pic relax := ⟨rfl, Or.inr ⟨fun _ => hret, fun d hd => by cases hd⟩⟩
      have hbuilt : ∀ tail : List UInt8, tail.length = 2 + dispSize d →
          Relocation.Built ⟨.rewritten, r.bytes ++ bytes.take i ++ tail⟩
            (CopyShape.Relocatable ⟨true, false, none, i + 1, i + 2 + dispSize d⟩ o addr offset bytes.length pic relax)
            (returnLength o addr bytes.length pic + (i + 2 + dispSize d))
            (CopyShape.PushesFirst ⟨true, false, none, i + 1, i + 2 + dispSize d⟩ o) := by
        intro tail htail
        refine (built_of_ok (r := ⟨.rewritten, _⟩) rfl hreloc).congr Iff.rfl ?_ Iff.rfl
        simp only [List.length_append, List.length_take, htail, hlen]
        omega
      unfold dispSize at hbuilt ⊢
      split
      · rename_i hzero
        rw [if_pos hzero] at hbuilt
        exact hbuilt _ rfl
      · rename_i hzero
        rw [if_neg hzero] at hbuilt
        split
        · rename_i hfit
          rw [if_pos hfit] at hbuilt
          exact hbuilt _ rfl
        · rename_i hfit
          rw [if_neg hfit] at hbuilt
          rw [List.append_assoc]
          exact hbuilt _ rfl
  · have hrelaxed : relax = false := by
      cases hr : relax with
      | false => rfl
      | true =>
          refine absurd (hpush.ok_iff.mpr ?_) hok
          rw [hrelax hr]
          exact returnReachable_zero o addr pic hsize
    have hok' : (pushReturnAddress o addr offset bytes.length pic).ok = false := by simpa using hok
    have hcall : o.option_Ocall = false := by
      cases hcall : o.option_Ocall with
      | false => rfl
      | true => exact absurd (hpush.ok_iff.mpr (Or.inl hcall)) hok
    rw [hok', hrelaxed, if_pos (show (!false && !false) = true from rfl)]
    constructor
    · refine iff_of_false (by simp [hok']) ?_
      rintro ⟨-, h | h⟩
      · cases h
      · exact hok (hpush.ok_iff.mpr (h.1 hisret))
    · intro h
      exact absurd h hok
    · intro h
      rw [hpush.pushed h]
      simp only [hcall, hdirty]

/-- A generic copy has no sequence in front and pushes nothing before its check. -/
theorem relocateGeneric_built (o : Options) {addr offset : Int} {bytes : List UInt8} (pic : Bool) {relax : Bool}
    (op : OpcodeInfo) (hrelax : relax = true → offset = 0) :
    (relocateGeneric addr offset bytes op).Built
      ((genericShape bytes op).Relocatable o addr offset bytes.length pic relax)
      (0 + (genericShape bytes op).length) ((genericShape bytes op).PushesFirst o) := by
  have hplain : Relocation.Built ⟨.copied, bytes⟩
      (CopyShape.Relocatable ⟨false, false, none, 0, bytes.length⟩ o addr offset bytes.length pic relax)
      (0 + bytes.length) (CopyShape.PushesFirst ⟨false, false, none, 0, bytes.length⟩ o) := by
    rw [Nat.zero_add]
    exact built_of_ok (r := ⟨.copied, bytes⟩) rfl (.plain rfl rfl rfl)
  unfold relocateGeneric genericShape
  simp only
  by_cases hshort : bytes.length - op.i < 5
  · rw [if_pos hshort, if_pos (Or.inl hshort)]
    exact hplain
  by_cases himm : op.encoding = .SINGLE_BYTE ∧ isMovImm op.opcode = true
  · rw [if_neg hshort, if_pos himm, if_pos (Or.inr himm)]
    exact hplain
  rw [if_neg (not_or.mpr ⟨hshort, himm⟩), if_neg hshort, if_neg himm]
  by_cases hrip : (byteAt bytes op.i &&& 0xc0) >>> 6 = 0x0 ∧ byteAt bytes op.i &&& 0x7 = 0x05 ∧
      bytes.length - (op.i + 1) ≥ 4
  · rw [if_pos hrip, ripDisp_iff.mpr ⟨by rwa [Nat.sub_sub], rfl⟩]
    have hdiff := signed32_range (uword32 bytes (op.i + 1))
    refine (rewrite_built _ _ _ _ _).congr ?_ ?_ ?_
    · constructor
      · rintro (h | h)
        · cases h
        · refine ⟨rfl, Or.inr ⟨nofun, ?_⟩⟩
          intro d hd
          obtain rfl := Option.some.inj hd
          simpa [CopyShape.returnLength] using h
      · rintro ⟨-, h | h⟩
        · -- at the place itself the displacement is the old one
          refine Or.inr ?_
          rw [hrelax h, fitsInt32_iff, word32]
          omega
        · have := h.2 _ rfl
          refine Or.inr ?_
          simpa [CopyShape.returnLength] using this
    · simp only [List.length_take, List.length_drop, List.length_nil]
      omega
    · simp [CopyShape.PushesFirst]
  · have hnone : ripDisp bytes op.i = none := by
      unfold ripDisp
      rw [if_neg (by rwa [Nat.sub_sub])]
    rw [if_neg hrip, hnone]
    exact hplain

theorem decodeOpcode_lt {bytes : List UInt8} {i : Nat} {op : OpcodeInfo} (h : decodeOpcode bytes i = some op)
    (hop : op.opcode = 0xFF) : 1 ≤ op.i := by
  unfold decodeOpcode decodeClassic at h
  simp only at h
  split at h
  · cases h
    exact absurd (show (0 : UInt8) = 0xFF from hop) (by decide)
  repeat' split at h
  all_goals first
    | (cases h; done)
    | (cases h; exact Nat.succ_pos _)
    | (obtain ⟨e, -, rfl⟩ := Option.map_eq_some_iff.mp h; exact Nat.succ_pos _)

/-- The copy of a jump, which has no return address. -/
theorem jump_built (o : Options) (addr offset : Int) (size : Nat) (pic relax : Bool) {d diff : Int} {n : Nat}
    {out opcode : List UInt8} (hn : out.length + opcode.length + 4 = n) (hdiff : addr + size + d - (addr + offset + n) = diff) :
    (rewrite relax out diff opcode []).Built
      (CopyShape.Relocatable ⟨false, false, some d, out.length, n⟩ o addr offset size pic relax)
      (0 + n) (CopyShape.PushesFirst ⟨false, false, some d, out.length, n⟩ o) := by
  refine (rewrite_built _ _ _ _ _).congr ?_ ?_ ?_
  · unfold CopyShape.Relocatable CopyShape.Reaches CopyShape.returnLength
    simp [hdiff]
  · simp only [List.length_nil]
    omega
  · simp [CopyShape.PushesFirst, List.length_pos_iff]

/-- The copy of a direct call, which pushes the return address first. -/
theorem directCall_built (o : Options) {addr offset : Int} {size : Nat} (pic : Bool) {relax : Bool} (d : Int)
    (hsize : size ≤ 15) (hrelax : relax = true → offset = 0) (opcode : UInt8) :
    (if !(pushReturnAddress o addr offset size pic).ok then pushReturnAddress o addr offset size pic
      else rewrite relax (pushReturnAddress o addr offset size pic).bytes
        (addr + size + d - (addr + offset + (pushReturnAddress o addr offset size pic).bytes.length + 5))
        [opcode] []).Built
      (CopyShape.Relocatable ⟨true, false, some d, 0, 5⟩ o addr offset size pic relax)
      (returnLength o addr size pic + 5) (CopyShape.PushesFirst ⟨true, false, some d, 0, 5⟩ o) := by
  have hpush := pushReturnAddress_built o addr offset size pic
  have hdirty : CopyShape.PushesFirst ⟨true, false, some d, 0, 5⟩ o ↔ o.option_Ocall = false := by
    simp [CopyShape.PushesFirst]
  cases hok : (pushReturnAddress o addr offset size pic).ok with
  | false =>
      rw [Bool.not_false, if_pos rfl]
      have hret : ¬ReturnReachable o addr offset size pic := by
        rw [← hpush.ok_iff, hok]
        nofun
      refine ⟨iff_of_false (by simp [hok]) ?_, fun h => absurd h (by simp [hok]), fun h => ?_⟩
      · rintro ⟨-, h | h⟩
        · rw [hrelax h] at hret
          exact hret (returnReachable_zero o addr pic hsize)
        · exact hret (h.1 rfl)
      · rw [hpush.pushed h, hdirty]
  | true =>
      rw [Bool.not_true, if_neg (by decide)]
      have hret := hpush.ok_iff.mp hok
      have hlen := hpush.length hok
      refine (rewrite_built _ _ _ _ _).congr ?_ ?_ ?_
      · unfold CopyShape.Relocatable CopyShape.Reaches CopyShape.returnLength
        simp [hret, hlen]
      · simp only [hlen, List.length_cons, List.length_nil]
      · rw [hdirty, ← List.length_pos_iff, hlen]
        unfold returnLength
        cases o.option_Ocall with
        | true => simp
        | false =>
            simp only [Bool.false_eq_true, if_false, iff_true]
            repeat' split
            all_goals decide

/-- What `relocateInstr` pushes. -/
theorem relocate_built (o : Options) {addr offset : Int} {bytes : List UInt8} (pic : Bool) {relax : Bool}
    (hsize : bytes.length ≤ 15) (hrelax : relax = true → offset = 0) :
    (relocate o addr offset bytes pic relax).Built
      ((copyShape o bytes).Relocatable o addr offset bytes.length pic relax)
      (copyLength o addr bytes pic) ((copyShape o bytes).PushesFirst o) := by
  unfold copyLength
  generalize hs : copyShape o bytes = s
  unfold copyShape at hs
  unfold relocate
  simp only at hs ⊢
  cases hop : decodeOpcode bytes (decodePrefix bytes).i with
  | none =>
      rw [hop] at hs
      subst hs
      refine (built_of_ok (r := ⟨.copied, bytes⟩) rfl (.plain rfl rfl rfl)).congr Iff.rfl ?_ Iff.rfl
      exact (Nat.zero_add _).symm
  | some op =>
      rw [hop] at hs
      simp only at hs ⊢
      split
      · rename_i h
        rw [if_pos h] at hs
        subst hs
        refine (relocateIndirectCall_built o pic _ hsize (decodeOpcode_lt hop h.2.1) (by omega) hrelax).congr Iff.rfl
          ?_ Iff.rfl
        rw [CopyShape.returnLength, if_pos (indirectCallShape_ret _ _ _ _).1]
      rename_i h1
      rw [if_neg h1] at hs
      split
      · rename_i h
        rw [if_pos h] at hs
        subst hs
        have hlen : ((if (decodePrefix bytes).addr32 = true then [0x67] else []) ++ [0xe3, 0x02, 0xeb, 0x05] :
            List UInt8).length = (if (decodePrefix bytes).addr32 = true then 1 else 0) + 4 := by
          split <;> rfl
        rw [← hlen]
        exact jump_built o addr offset bytes.length pic relax rfl (by omega)
      rename_i h2
      rw [if_neg h2] at hs
      split
      · rename_i h
        rw [if_pos h] at hs
        subst hs
        exact jump_built o addr offset bytes.length pic relax rfl rfl
      rename_i h3
      rw [if_neg h3] at hs
      split
      · rename_i h
        rw [if_pos h] at hs
        subst hs
        exact jump_built o addr offset bytes.length pic relax rfl rfl
      rename_i h4
      rw [if_neg h4] at hs
      split
      · rename_i h
        rw [if_pos h] at hs
        subst hs
        exact directCall_built o pic _ hsize hrelax _
      rename_i h5
      rw [if_neg h5] at hs
      split
      · rename_i h
        rw [if_pos h] at hs
        subst hs
        exact jump_built o addr offset bytes.length pic relax rfl rfl
      rename_i h6
      rw [if_neg h6] at hs
      split
      · rename_i h
        rw [if_pos h] at hs
        subst hs
        exact jump_built o addr offset bytes.length pic relax rfl rfl
      rename_i h7
      rw [if_neg h7] at hs
      subst hs
      have hret : (genericShape bytes op).ret = false := by
        unfold genericShape
        simp only
        split <;> rfl
      refine (relocateGeneric_built o pic op hrelax).congr Iff.rfl ?_ Iff.rfl
      rw [CopyShape.returnLength, hret]
      rfl

/-! ### The buffer behind a failure -/

theorem Buffer.reset_push (buf : Buffer) (bytes : List UInt8) : (buf.push bytes).reset buf.size = buf := by
  unfold Buffer.reset Buffer.push Buffer.size
  simp only [List.take_left]

theorem Buffer.push_eq_self {buf : Buffer} {bytes : List UInt8} : buf.push bytes = buf ↔ bytes = [] := by
  constructor
  · intro h
    have := congrArg Buffer.size h
    simp only [Buffer.size, Buffer.push, List.length_append] at this
    exact List.length_eq_zero_iff.mp (by omega)
  · rintro rfl
    simp [Buffer.push]

theorem relocateInstr_buffer (o : Options) (addr offset : Int) (bytes : List UInt8) (pic relax : Bool) (buf : Buffer) :
    (relocateInstr o addr offset bytes pic buf relax).2 = buf ∨
      (relocateInstr o addr offset bytes pic buf relax).2 = buf.push (relocate o addr offset bytes pic relax).bytes := by
  unfold relocateInstr
  simp only
  split
  · unfold Buffer.commit
    split
    · exact Or.inl (Buffer.reset_push _ _)
    · exact Or.inr rfl
  · exact Or.inr rfl

/-- The offset of the copy of `I` at `dest`. -/
def relocOffset (B : Binary) (I : Nat) (dest : Int) : Int :=
  signed32 (if dest = INTPTR_MIN then 0 else dest - (B.Is I).addr)

/-- `I` can be relocated to `dest`. -/
def Relocatable (B : Binary) (I : Nat) (dest : Int) : Prop :=
  (copyShape B.options (B.ORIG I)).Relocatable B.options (B.Is I).addr (relocOffset B I dest)
    (B.ORIG I).length (B.Is I).pic (decide (dest = INTPTR_MIN))

/-- The copy of `I` fits in what is left of the buffer. -/
def HasRoom (B : Binary) (I : Nat) (buf : Buffer) : Prop :=
  buf.size + copyLength B.options (B.Is I).addr (B.ORIG I) (B.Is I).pic ≤ buf.max

def PushesFirst (B : Binary) (I : Nat) : Prop := (copyShape B.options (B.ORIG I)).PushesFirst B.options

section
variable {B : Binary} {I : Nat} {dest : Int} {buf : Buffer}

theorem relocateInstrTo_offset (B : Binary) (I : Nat) (dest : Int) (buf : Buffer) :
    relocateInstrTo B I dest buf = relocateInstr B.options (B.Is I).addr (relocOffset B I dest) (B.ORIG I)
      (B.Is I).pic buf (decide (dest = INTPTR_MIN)) := by
  unfold relocateInstrTo relocOffset
  by_cases h : dest = INTPTR_MIN <;> simp [h]

/-- What the copy of `I` pushes at `dest`. -/
theorem relocateTo_built (dest : Int) (hsize : (B.Is I).size ≤ 15) :
    (relocate B.options (B.Is I).addr (relocOffset B I dest) (B.ORIG I) (B.Is I).pic
      (decide (dest = INTPTR_MIN))).Built (Relocatable B I dest)
      (copyLength B.options (B.Is I).addr (B.ORIG I) (B.Is I).pic) (PushesFirst B I) := by
  refine relocate_built _ _ (by rwa [ORIG_length]) ?_
  intro h
  unfold relocOffset
  rw [if_pos (of_decide_eq_true h)]
  exact signed32_eq (by decide) (by decide)

/-- An instruction that can be relocated is copied if there is room. -/
theorem relocateInstrTo_fits (hsize : (B.Is I).size ≤ 15) (h : Relocatable B I dest) (hroom : HasRoom B I buf) :
    (relocateInstrTo B I dest buf).1 = copyLength B.options (B.Is I).addr (B.ORIG I) (B.Is I).pic := by
  have hbuilt := relocateTo_built dest hsize
  have hok := hbuilt.ok_iff.mpr h
  have hlen := hbuilt.length hok
  unfold HasRoom at hroom
  have hmax : ¬buf.size + copyLength B.options (B.Is I).addr (B.ORIG I) (B.Is I).pic > buf.max := by omega
  rw [relocateInstrTo_offset]
  unfold relocateInstr Buffer.commit
  simp only [hok, if_true, Buffer.size, Buffer.push, List.length_append, hlen] at hmax ⊢
  rw [if_neg hmax]
  simp only
  omega

/-- Where there is no room, nothing is left of the copy. -/
theorem relocateInstrTo_overflows (hsize : (B.Is I).size ≤ 15) (h : Relocatable B I dest) (hroom : ¬HasRoom B I buf) :
    relocateInstrTo B I dest buf = (-1, buf) := by
  have hbuilt := relocateTo_built dest hsize
  have hok := hbuilt.ok_iff.mpr h
  have hlen := hbuilt.length hok
  unfold HasRoom at hroom
  rw [relocateInstrTo_offset]
  unfold relocateInstr
  simp only [hok, if_true]
  unfold Buffer.commit
  rw [if_pos (by simp only [Buffer.size, Buffer.push, List.length_append, hlen] at hroom ⊢; omega), Buffer.reset_push]

/-- An instruction that cannot be relocated leaves what was pushed. -/
theorem relocateInstrTo_failed (buf : Buffer) (hsize : (B.Is I).size ≤ 15) (h : ¬Relocatable B I dest) :
    (relocateInstrTo B I dest buf).1 = -1 ∧ buf.size ≤ (relocateInstrTo B I dest buf).2.size ∧
      ((relocateInstrTo B I dest buf).2 = buf ↔ ¬PushesFirst B I) := by
  have hbuilt := relocateTo_built dest hsize
  have hok := Bool.eq_false_iff.mpr fun hok => h (hbuilt.ok_iff.mp hok)
  rw [relocateInstrTo_offset]
  unfold relocateInstr
  simp only [hok, Bool.false_eq_true, if_false, Buffer.push_eq_self, hbuilt.pushed hok, true_and, and_true]
  simp only [Buffer.size, Buffer.push, List.length_append]
  omega

theorem copyLength_pos (hpos : 1 ≤ (B.Is I).size) :
    1 ≤ copyLength B.options (B.Is I).addr (B.ORIG I) (B.Is I).pic := by
  have hlen := ORIG_length B I
  refine Nat.le_trans ?_ (Nat.le_add_left _ _)
  unfold copyShape indirectCallShape genericShape
  simp only
  repeat' split
  all_goals first
    | exact Nat.succ_pos _
    | (rw [hlen]; exact hpos)
    | (simp only; omega)

theorem copyLength_le (hsize : (B.Is I).size ≤ 15) (h : Relocatable B I dest) :
    copyLength B.options (B.Is I).addr (B.ORIG I) (B.Is I).pic ≤ 48 := by
  have hbuilt := relocateTo_built dest hsize
  have hle := relocate_length_le B.options (B.Is I).addr (relocOffset B I dest) (B.ORIG I) (B.Is I).pic
    (decide (dest = INTPTR_MIN))
  rw [hbuilt.length (hbuilt.ok_iff.mpr h), ORIG_length] at hle
  omega

/-! ### The first part -/

/-- A relocation that fails leaves the buffer as it was. -/
def EmitsNothing (B : Binary) (I : Nat) (dest : Int) (buf : Buffer) : Prop :=
  (relocateInstrTo B I dest buf).1 = -1 → (relocateInstrTo B I dest buf).2 = buf

theorem emitsNothing_iff (hsize : (B.Is I).size ≤ 15) :
    EmitsNothing B I dest buf ↔ Relocatable B I dest ∨ ¬PushesFirst B I := by
  by_cases h : Relocatable B I dest
  · refine iff_of_true ?_ (Or.inl h)
    intro hfail
    by_cases hroom : HasRoom B I buf
    · rw [relocateInstrTo_fits hsize h hroom] at hfail
      omega
    · rw [relocateInstrTo_overflows hsize h hroom]
  · obtain ⟨hfail, -, hbuf⟩ := relocateInstrTo_failed buf hsize h
    unfold EmitsNothing
    simp only [hfail, hbuf, h, false_or, forall_const]

/-! ### Where the callers go on -/

/-- The fallback of `buildBreak` after an epilogue that could not be copied is the jump, and it stands
where the break was to start. -/
def FallbackStarts (B : Binary) (I : Nat) (base : Int) (buf : Buffer) : Prop :=
  ∀ (breaks : BreakInfo) (r : Int × Buffer), (B.Is I).no_optimize = false →
    (findEpilogue B B.options.option_Oepilogue I 0).2 = true →
    buildEpilogue B .BYTES breaks (findEpilogue B B.options.option_Oepilogue I 0).1 (B.next I) (base + buf.size) buf =
      .ok (false, r) →
    buildBreak B I (base + buf.size) false true .BYTES breaks buf =
      buildBreakJump B (some I) (base + buf.size) .BYTES breaks buf

/-- After an `$instr` that failed, the pass for the bytes goes on at the address that the pass for the
labels has. -/
def GoesOnAtLabel (B : Binary) (I : Nat) (base : Int) (buf : Buffer) : Prop :=
  (relocateInstrTo B I (base + buf.size) buf).1 = -1 →
    ∀ recL recB last isLast (a a' : LabelPass) breaks labels buf', a.addr = base + buf.size →
      entryLabels B recL last .INSTR isLast (some I) a = .ok (some I, a') →
      entryBytes B recB base last breaks labels .INSTR isLast (some I) buf = .ok (some I, buf') →
      a'.addr = base + buf'.size

theorem goesOnAtLabel_iff (hpos : 1 ≤ (B.Is I).size) (hsize : (B.Is I).size ≤ 15) {base : Int} :
    GoesOnAtLabel B I base buf ↔ Relocatable B I (base + buf.size) ∧ HasRoom B I buf := by
  have hpos := copyLength_pos hpos
  have hstep : ¬(Relocatable B I (base + buf.size) ∧ HasRoom B I buf) →
      (relocateInstrTo B I (base + buf.size) buf).1 = -1 ∧
        base + buf.size + relocateLength B I (base + buf.size) ≠
          base + (relocateInstrTo B I (base + buf.size) buf).2.size := by
    intro h
    by_cases hr : Relocatable B I (base + buf.size)
    · have hroom : ¬HasRoom B I buf := fun hroom => h ⟨hr, hroom⟩
      have hle := copyLength_le hsize hr
      have hlabel : HasRoom B I ⟨[], UINT32_MAX⟩ := by
        unfold HasRoom
        simp only [Buffer.size, List.length_nil, UINT32_MAX]
        omega
      rw [relocateInstrTo_overflows hsize hr hroom, relocateLength, relocateInstrTo_fits hsize hr hlabel]
      refine ⟨rfl, ?_⟩
      simp only
      omega
    · obtain ⟨hfail, hge, -⟩ := relocateInstrTo_failed buf hsize hr
      refine ⟨hfail, ?_⟩
      rw [relocateLength, (relocateInstrTo_failed ⟨[], UINT32_MAX⟩ hsize hr).1]
      omega
  constructor
  · intro h
    by_contra hc
    obtain ⟨hfail, hne⟩ := hstep hc
    exact hne (h hfail (fun _ _ _ a => .ok a) (fun _ _ _ b => .ok b) true true ⟨base + buf.size, [], []⟩ _ [] [] _
      rfl rfl rfl)
  · rintro ⟨hr, hroom⟩ hfail
    rw [relocateInstrTo_fits hsize hr hroom] at hfail
    omega

end

theorem buildBreakJump_pushes {B : Binary} {I : Option Nat} {addr : Int} {breaks : BreakInfo} {buf : Buffer}
    {r : Int × Buffer} (h : buildBreakJump B I addr .BYTES breaks buf = .ok r) : ∃ bytes, r.2 = buf.push bytes := by
  unfold buildBreakJump at h
  simp only [bind_ok] at h
  obtain ⟨K, -, -, -, h⟩ := h
  cases h
  exact ⟨_, rfl⟩

theorem relocateInstrTo_pushes (B : Binary) (I : Nat) (dest : Int) (buf : Buffer) :
    ∃ bytes, (relocateInstrTo B I dest buf).2 = buf.push bytes := by
  rw [relocateInstrTo_offset]
  rcases relocateInstr_buffer B.options (B.Is I).addr (relocOffset B I dest) (B.ORIG I) (B.Is I).pic
    (decide (dest = INTPTR_MIN)) buf with h | h
  · exact ⟨[], by rw [h, Buffer.push_eq_self.mpr rfl]⟩
  · exact ⟨_, h⟩

theorem Buffer.push_push (buf : Buffer) (bytes more : List UInt8) :
    (buf.push bytes).push more = buf.push (bytes ++ more) := by
  simp [Buffer.push]

/-- What `buildEpilogue` does to the buffer is to push. -/
theorem buildEpilogue_pushes {B : Binary} {breaks : BreakInfo} {n : Nat} {J : Option Nat} {addr : Int}
    {buf : Buffer} {r : Bool × Int × Buffer} (h : buildEpilogue B .BYTES breaks n J addr buf = .ok r) :
    ∃ bytes, r.2.2 = buf.push bytes := by
  induction n generalizing J addr buf with
  | zero =>
      cases h
      exact ⟨[], (Buffer.push_eq_self.mpr rfl).symm⟩
  | succ n ih =>
      unfold buildEpilogue at h
      rw [bind_ok] at h
      obtain ⟨K, -, h⟩ := h
      split at h
      · simp only [bind_ok] at h
        obtain ⟨-, -, b, hb, h⟩ := h
        cases h
        obtain ⟨bytes, hbytes⟩ := buildBreakJump_pushes hb
        exact ⟨bytes, hbytes⟩
      · obtain ⟨bytes, hbytes⟩ := relocateInstrTo_pushes B K addr buf
        simp only at h
        split at h
        · obtain ⟨more, hmore⟩ := ih h
          exact ⟨bytes ++ more, by rw [hmore, hbytes, Buffer.push_push]⟩
        · cases h
          exact ⟨bytes, hbytes⟩

theorem fallbackStarts (B : Binary) (I : Nat) (base : Int) (buf : Buffer) : FallbackStarts B I base buf := by
  intro breaks r hopt hcft hepilogue
  obtain ⟨bytes, hbytes⟩ := buildEpilogue_pushes hepilogue
  have hreset : r.2.reset buf.size = buf := by
    rw [hbytes, Buffer.reset_push]
  unfold buildBreak
  simp only [hopt, hcft, hepilogue, Bool.not_true, Bool.or_self, Bool.false_eq_true, if_false]
  change buildBreakJump B (some I) (base + buf.size) .BYTES breaks (r.2.reset buf.size) = _
  rw [hreset]

/-- A relocation that fails leaves the buffer alone just where it had nothing to push before the check, and
the callers go on where the labels say just where it does not fail: the instruction can be relocated and its
copy fits. -/
theorem failed_relocation_iff {B : Binary} {I : Nat} {base : Int} {buf : Buffer} (hpos : 1 ≤ (B.Is I).size)
    (hsize : (B.Is I).size ≤ 15) :
    (EmitsNothing B I (base + buf.size) buf ↔ Relocatable B I (base + buf.size) ∨ ¬PushesFirst B I) ∧
    (EmitsNothing B I (base + buf.size) buf ∧ FallbackStarts B I base buf ∧ GoesOnAtLabel B I base buf ↔
      Relocatable B I (base + buf.size) ∧ HasRoom B I buf) := by
  refine ⟨emitsNothing_iff hsize, ?_⟩
  constructor
  · rintro ⟨-, -, h⟩
    exact (goesOnAtLabel_iff hpos hsize).mp h
  · rintro ⟨hr, hroom⟩
    exact ⟨(emitsNothing_iff hsize).mpr (Or.inl hr), fallbackStarts B I base buf,
      (goesOnAtLabel_iff hpos hsize).mpr ⟨hr, hroom⟩⟩

/-- `callq` to where a jump from below the instruction does not reach. -/
def farCall : Binary := instrBinary defaultOptions false 0x400000 [0xe8, 0x00, 0xff, 0xff, 0x7f]

/-- At its own place the call can be relocated. -/
theorem farCall_near :
    (EmitsNothing farCall 0 (0x400000 + (⟨[], 64⟩ : Buffer).size) ⟨[], 64⟩ ↔
      Relocatable farCall 0 (0x400000 + (⟨[], 64⟩ : Buffer).size) ∨ ¬PushesFirst farCall 0) ∧
    (EmitsNothing farCall 0 (0x400000 + (⟨[], 64⟩ : Buffer).size) ⟨[], 64⟩ ∧
        FallbackStarts farCall 0 0x400000 ⟨[], 64⟩ ∧ GoesOnAtLabel farCall 0 0x400000 ⟨[], 64⟩ ↔
      Relocatable farCall 0 (0x400000 + (⟨[], 64⟩ : Buffer).size) ∧ HasRoom farCall 0 ⟨[], 64⟩) :=
  failed_relocation_iff (by decide) (by decide)

/-- Below it the return address is pushed, and then the jump does not fit. -/
theorem farCall_leaves_push :
    (relocateInstrTo farCall 0 0x3f0000 ⟨[0x90], 64⟩).1 = -1 ∧
      (relocateInstrTo farCall 0 0x3f0000 ⟨[0x90], 64⟩).2.data = [0x90, 0x68, 0x05, 0x00, 0x40, 0x00] ∧
      ¬EmitsNothing farCall 0 0x3f0000 ⟨[0x90], 64⟩ ∧ ¬GoesOnAtLabel farCall 0 0x3effff ⟨[0x90], 64⟩ := by
  have hfail : (relocateInstrTo farCall 0 0x3f0000 ⟨[0x90], 64⟩).1 = -1 := by decide
  have hdata : (relocateInstrTo farCall 0 0x3f0000 ⟨[0x90], 64⟩).2.data = [0x90, 0x68, 0x05, 0x00, 0x40, 0x00] := by
    decide
  refine ⟨hfail, hdata, ?_, ?_⟩
  · intro h
    have := congrArg Buffer.data (h hfail)
    rw [hdata] at this
    exact absurd this (by decide)
  · intro h
    have := h hfail (fun _ _ _ a => .ok a) (fun _ _ _ b => .ok b) true true ⟨0x3f0000, [], []⟩ _ [] [] _ rfl rfl rfl
    exact absurd this (by decide)

end E9Patch
