import E9Patch.CFRModel
import E9Patch.X86PCRel

/-!
What the target analysis covers. The scan comes by every position that is not the second byte of a
conditional branch, an opcode is never such a byte, and the round at the opcode of a branch or a call marks
where it goes. This is right where the target is mapped with the same distance of addresses and offsets,
and where the size of the operand of a call is; the loop instructions and `xbegin` are not looked for.
-/

namespace E9Patch
open Bytes X86

set_option maxRecDepth 20000

/-! ### Marks -/

theorem setTarget_self {size : Nat} (targets : Nat → Bool) {q : Nat} (h1 : 64 ≤ q) (h2 : q < size) :
    setTarget size targets q q = true := by
  unfold setTarget EHDR_SIZE
  rw [if_neg (by omega)]
  exact if_pos rfl

theorem setTarget_mono {size : Nat} {targets : Nat → Bool} (offset : Int) {q : Nat} (h : targets q = true) :
    setTarget size targets offset q = true := by
  unfold setTarget
  split
  · exact h
  · show (if (q : Int) = offset then true else targets q) = true
    rw [h]
    exact ite_self true

/-- Marks only grow, so that everything on the list is marked in the end. -/
theorem foldl_setTarget {size : Nat} {offsets : List Int} {q : Nat} (h1 : 64 ≤ q) (h2 : q < size)
    {targets : Nat → Bool} (h : (q : Int) ∈ offsets ∨ targets q = true) :
    offsets.foldl (setTarget size) targets q = true := by
  induction offsets generalizing targets with
  | nil =>
      rcases h with h | h
      · cases h
      · exact h
  | cons offset offsets ih =>
      apply ih
      rcases h with h | h
      · rcases List.mem_cons.mp h with h | h
        · exact Or.inr (h ▸ setTarget_self targets h1 h2)
        · exact Or.inl h
      · exact Or.inr (setTarget_mono offset h)

/-! ### The scan -/

section
variable (B : Binary) (phdrs : List Phdr) (cet : Bool) (ub : Nat)

theorem fst_ite {c : Prop} [Decidable c] {r r' : Nat × List Int} {n : Nat} (h : r.1 = n) (h' : r'.1 = n) :
    (if c then r else r').1 = n := by
  split
  · exact h
  · exact h'

/-- A round goes to the next position, or past the second byte of a conditional branch. -/
theorem scanStep_next (j : Nat) : (scanStep B phdrs cet ub j).1 = j + 1 ∨
    (scanStep B phdrs cet ub j).1 = j + 2 ∧ isJcc32 (B.original (j + 1)) = true := by
  unfold scanStep
  simp only
  by_cases h0f : B.original j = 0x0f
  · rw [if_pos h0f]
    by_cases hjcc : isJcc32 (B.original (j + 1)) = true
    · by_cases hj : j + 1 ≥ ub
      · rw [if_pos (Or.inl hj)]
        exact Or.inl rfl
      · rw [if_neg (by rw [hjcc]; simpa using hj)]
        exact Or.inr ⟨fst_ite rfl rfl, hjcc⟩
    · rw [if_pos (Or.inr hjcc)]
      exact Or.inl rfl
  · rw [if_neg h0f]
    refine Or.inl ?_
    repeat' apply fst_ite
    -- the two rounds that look at the size of an operand are left
    all_goals first
      | rfl
      | cases getModRMSize (dataFrom B (j + 1) (ub - (j + 1))) (ub - (j + 1)) with
        | none => rfl
        | some sz => first | rfl | exact fst_ite rfl rfl

/-- Every position is scanned, but for the second bytes of conditional branches. -/
theorem mem_scanPositions {q : Nat} (hq : q < ub) (hskip : isJcc32 (B.original q) = false) {fuel j : Nat}
    (hj : j ≤ q) (hfuel : ub ≤ fuel + j) : q ∈ scanPositions B phdrs cet ub fuel j := by
  induction fuel generalizing j with
  | zero => omega
  | succ fuel ih =>
      rw [scanPositions, if_neg (by omega), List.mem_cons]
      by_cases hjq : j = q
      · exact Or.inl hjq.symm
      · have hnext := scanStep_next B phdrs cet ub j
        refine Or.inr (ih ?_ ?_)
        · rcases hnext with hnext | ⟨hnext, hjcc⟩
          · omega
          · have hne : j + 1 ≠ q := by
              rintro rfl
              rw [hskip] at hjcc
              cases hjcc
            omega
        · rcases hnext with hnext | ⟨hnext, -⟩ <;> omega

/-- The scan collects what its rounds mark. -/
theorem scanFrom_eq (fuel j : Nat) : scanFrom B phdrs cet ub fuel j =
    (scanPositions B phdrs cet ub fuel j).flatMap fun j => (scanStep B phdrs cet ub j).2 := by
  induction fuel generalizing j with
  | zero => rfl
  | succ fuel ih =>
      rw [scanFrom, scanPositions]
      split
      · rfl
      · rw [List.flatMap_cons, ← ih]

/-! ### The round at an opcode -/

theorem scanStep_jcc {j : Nat} (h : B.original j = 0x0f) (hjcc : isJcc32 (B.original (j + 1)) = true)
    (hend : j + 6 ≤ ub) :
    (scanStep B phdrs cet ub j).2 = [j + 6 + rel32At B (j + 2), ((j + 6 : Nat) : Int)] := by
  have hguard : ¬(j + 1 ≥ ub ∨ ¬isJcc32 (B.original (j + 1)) = true) := by
    rw [hjcc]
    simp only [not_true_eq_false, or_false]
    omega
  unfold scanStep
  simp only
  rw [if_pos h, if_neg hguard, if_neg (by omega : ¬j + 1 + 5 > ub)]
  have hnext : ((j + 1 : Nat) : Int) + 5 = j + 6 := by omega
  show [((j + 1 : Nat) : Int) + 5 + rel32At B (j + 2), ((j + 6 : Nat) : Int)] = _
  rw [hnext]

theorem scanStep_near {j : Nat} (h : B.original j = 0xe8 ∨ B.original j = 0xe9) (hend : j + 5 ≤ ub) :
    (scanStep B phdrs cet ub j).2 = (j + 5 + rel32At B (j + 1)) ::
      if B.original j = 0xe8 then [((j + 5 : Nat) : Int)] else [] := by
  have h0f : B.original j ≠ 0x0f := by
    rcases h with h | h <;> rw [h] <;> decide
  unfold scanStep
  simp only
  rw [if_neg h0f, if_pos h, if_neg (by omega : ¬j + 5 > ub)]

theorem scanStep_short {j : Nat} (h : B.original j = 0xe3 ∨ B.original j = 0xeb ∨ isJcc8 (B.original j) = true)
    (hend : j + 2 ≤ ub) :
    (scanStep B phdrs cet ub j).2 = [j + 2 + rel8At B (j + 1), ((j + 2 : Nat) : Int)] := by
  have hne : ∀ b : UInt8, b = 0xe3 ∨ b = 0xeb ∨ isJcc8 b = true → b ≠ 0x0f ∧ ¬(b = 0xe8 ∨ b = 0xe9) := by
    decide
  unfold scanStep
  simp only
  rw [if_neg (hne _ h).1, if_neg (hne _ h).2, if_pos h, if_neg (by omega : ¬j + 2 > ub)]

theorem scanStep_indirect {j sz : Nat} (h : B.original j = 0xff) (hend : j + 2 ≤ ub)
    (hsize : getModRMSize (dataFrom B (j + 1) (ub - (j + 1))) (ub - (j + 1)) = some sz) :
    (scanStep B phdrs cet ub j).2 = [((j + 1 + sz : Nat) : Int)] := by
  unfold scanStep
  simp only
  rw [h, if_neg (by decide), if_neg (by decide), if_neg (by decide), if_pos rfl,
    if_neg (by omega : ¬j + 2 > ub), hsize]

end

/-! ### Transfers -/

/-- What leads somewhere: a direct branch to its target, a call to the instruction behind it. -/
inductive Transfer where
  | branch (x : PCRelative) (h : x.IsBranch)
  | call (x : PCRelative) (h : x.form = .near 0xe8)
  | indirect (x : IndirectCall)

def Transfer.bytes : Transfer → List UInt8
  | .branch x _ | .call x _ => x.bytes
  | .indirect x => x.bytes

/-- The offset is in the part of the segment that is in the file. -/
def Phdr.Contains (B : Binary) (s : Phdr) (q : Nat) : Prop :=
  s.p_offset ≤ q ∧ q < s.p_offset + min s.p_filesz s.p_memsz ∧ q < B.size

instance (B : Binary) (s : Phdr) (q : Nat) : Decidable (s.Contains B q) := by
  unfold Phdr.Contains
  infer_instance

/-- The address of an offset. -/
def Phdr.address (s : Phdr) (q : Nat) : Int := s.p_vaddr + (q - s.p_offset)

/-- From offset `p` of the segment `s`, control gets to offset `q`: to an address of the segment `t`, for a
branch. -/
def Transfer.LeadsTo (B : Binary) (s t : Phdr) (p q : Nat) : Transfer → Prop
  | .branch x _ => t.Contains B q ∧ t.address q = s.address p + x.bytes.length + x.rel
  | .call x _ => q = p + x.bytes.length ∧ q < B.size
  | .indirect x => q = p + x.bytes.length ∧ q < B.size

/-- What the scan looks for: branches that are not `loop` or `xbegin` and go where offsets have the same
distance from addresses, and calls whose operand is not a displacement behind a SIB byte. -/
def Transfer.Found (s t : Phdr) : Transfer → Prop
  | .branch x _ =>
    (∀ op, x.form = .short op → isLoop op = false) ∧ x.form ≠ .xbegin ∧
      t.p_vaddr - t.p_offset = s.p_vaddr - s.p_offset
  | .call _ _ => True
  | .indirect x =>
    ¬(byteAt x.operand 0 >>> 6 = 0 ∧ byteAt x.operand 0 &&& 0x7 = 4 ∧ byteAt x.operand 1 &&& 0x7 = 5)

/-- The bytes stand at an offset of the segment. -/
def Phdr.Holds (B : Binary) (s : Phdr) (p : Nat) (bytes : List UInt8) : Prop :=
  ∀ i < bytes.length, s.Contains B (p + i) ∧ B.original (p + i) = byteAt bytes i

instance (B : Binary) (s : Phdr) (p : Nat) (bytes : List UInt8) : Decidable (s.Holds B p bytes) := by
  unfold Phdr.Holds
  infer_instance

section
variable {B : Binary} {s : Phdr}

theorem Phdr.Holds.left {p : Nat} {as bs : List UInt8} (h : s.Holds B p (as ++ bs)) : s.Holds B p as := by
  intro i hi
  have hlt : i < (as ++ bs).length := by
    rw [List.length_append]
    omega
  have hholds := h i hlt
  rw [byteAt_append_left hi] at hholds
  exact hholds

theorem Phdr.Holds.right {p : Nat} {as bs : List UInt8} (h : s.Holds B p (as ++ bs)) :
    s.Holds B (p + as.length) bs := by
  intro i hi
  have hlt : as.length + i < (as ++ bs).length := by
    rw [List.length_append]
    omega
  have hholds := h (as.length + i) hlt
  rw [byteAt_append_right, ← Nat.add_assoc] at hholds
  exact hholds

theorem Phdr.Holds.head {p : Nat} {b : UInt8} {bs : List UInt8} (h : s.Holds B p (b :: bs)) :
    B.original p = b :=
  (h 0 (Nat.zero_lt_succ _)).2

theorem Phdr.Holds.tail {p : Nat} {b : UInt8} {bs : List UInt8} (h : s.Holds B p (b :: bs)) :
    s.Holds B (p + 1) bs := by
  intro i hi
  have hholds := h (i + 1) (Nat.succ_lt_succ hi)
  rw [byteAt_cons_succ, Nat.add_comm i 1, ← Nat.add_assoc] at hholds
  exact hholds

/-- The bytes are in the part of the segment that is scanned. -/
theorem Phdr.Holds.within {p : Nat} {bytes : List UInt8} (h : s.Holds B p bytes) (hpos : 0 < bytes.length) :
    s.p_offset ≤ p ∧ p + bytes.length ≤ segmentEnd B s := by
  have hfirst := (h 0 hpos).1
  have hlast := (h (bytes.length - 1) (by omega)).1
  unfold Phdr.Contains at hfirst hlast
  unfold segmentEnd
  omega

theorem byteAt_dataFrom {j n i : Nat} (h : i < n) : byteAt (dataFrom B j n) i = B.original (j + i) := by
  unfold byteAt dataFrom
  rw [List.getD_eq_getElem?_getD, List.getElem?_map, List.getElem?_range h]
  rfl

theorem Phdr.Holds.rel8 {p : Nat} {disp : List UInt8} (h : s.Holds B p disp) (hsize : disp.length = 1) :
    rel8At B p = word8 disp 0 := by
  unfold rel8At word8
  rw [byteAt_dataFrom (by decide), (h 0 (by omega)).2]

theorem Phdr.Holds.rel32 {p : Nat} {disp : List UInt8} (h : s.Holds B p disp) (hsize : disp.length = 4) :
    rel32At B p = word32 disp 0 := by
  unfold rel32At word32 uword32
  rw [byteAt_dataFrom (by decide), byteAt_dataFrom (by decide), byteAt_dataFrom (by decide),
    byteAt_dataFrom (by decide), (h 0 (by omega)).2, (h (0 + 1) (by omega)).2, (h (0 + 2) (by omega)).2,
    (h (0 + 3) (by omega)).2]

/-- What the round at an opcode marks is marked by the scan of the segment. -/
theorem mem_scanSegment {phdrs : List Phdr} {cet : Bool} (hcode : isCode s = true) {j : Nat}
    (hj : s.p_offset ≤ j) (hend : j < segmentEnd B s) (hskip : isJcc32 (B.original j) = false) {offset : Int}
    (h : offset ∈ (scanStep B phdrs cet (segmentEnd B s) j).2) : offset ∈ scanSegment B phdrs cet s := by
  unfold scanSegment
  rw [if_pos hcode, scanFrom_eq]
  exact List.mem_flatMap.mpr ⟨j, mem_scanPositions B phdrs cet _ hend hskip hj (by omega), h⟩

theorem imm_length {x : PCRelative} (hx : x.IsBranch) : x.imm.length = 0 := by
  rw [x.imm_size]
  unfold PCRelative.IsBranch at hx
  cases hform : x.form with
  | operand o reg =>
      rw [hform] at hx
      exact hx.elim
  | short op => rfl
  | near op => rfl
  | jcc op => rfl
  | xbegin => rfl

theorem branch_length {x : PCRelative} (hx : x.IsBranch) :
    x.bytes.length = x.pres.length + x.form.head.length + x.form.dispSize := by
  unfold PCRelative.bytes
  rw [List.length_append, List.length_append, List.length_append, x.disp_size, imm_length hx, Nat.add_zero]

variable (phdrs : List Phdr) (cet : Bool) {p : Nat}

/-- The rounds at the opcodes of branches mark their targets. -/
theorem mem_short (hcode : isCode s = true) {op : UInt8} {disp : List UInt8} (h : s.Holds B p (op :: disp))
    (hsize : disp.length = 1) (hop : op = 0xe3 ∨ op = 0xeb ∨ isJcc8 op = true) :
    (p : Int) + 2 + word8 disp 0 ∈ scanSegment B phdrs cet s := by
  have hskip : ∀ b : UInt8, b = 0xe3 ∨ b = 0xeb ∨ isJcc8 b = true → isJcc32 b = false := by decide
  have hwithin := h.within (Nat.zero_lt_succ _)
  rw [List.length_cons, hsize] at hwithin
  have hhead := h.head
  have hdisp : s.Holds B (p + 1) disp := h.tail
  refine mem_scanSegment hcode hwithin.1 (by omega) ?_ ?_
  · rw [hhead]
    exact hskip op hop
  · rw [scanStep_short B phdrs cet _ (by rw [hhead]; exact hop) hwithin.2, hdisp.rel8 hsize]
    exact List.mem_cons_self

theorem mem_near (hcode : isCode s = true) {op : UInt8} {disp : List UInt8} (h : s.Holds B p (op :: disp))
    (hsize : disp.length = 4) (hop : op = 0xe8 ∨ op = 0xe9) :
    (p : Int) + 5 + word32 disp 0 ∈ scanSegment B phdrs cet s ∧
      (op = 0xe8 → ((p + 5 : Nat) : Int) ∈ scanSegment B phdrs cet s) := by
  have hskip : ∀ b : UInt8, b = 0xe8 ∨ b = 0xe9 → isJcc32 b = false := by decide
  have hwithin := h.within (Nat.zero_lt_succ _)
  rw [List.length_cons, hsize] at hwithin
  have hhead := h.head
  have hdisp : s.Holds B (p + 1) disp := h.tail
  have hmem : ∀ offset ∈ (scanStep B phdrs cet (segmentEnd B s) p).2, offset ∈ scanSegment B phdrs cet s :=
    fun offset => mem_scanSegment hcode hwithin.1 (by omega) (by rw [hhead]; exact hskip op hop)
  rw [scanStep_near B phdrs cet _ (by rw [hhead]; exact hop) hwithin.2, hdisp.rel32 hsize, hhead] at hmem
  refine ⟨hmem _ List.mem_cons_self, fun hcall => hmem _ (List.mem_cons_of_mem _ ?_)⟩
  rw [if_pos hcall]
  exact List.mem_cons_self

theorem mem_jcc (hcode : isCode s = true) {op : UInt8} {disp : List UInt8} (h : s.Holds B p (0x0f :: op :: disp))
    (hsize : disp.length = 4) (hop : isJcc32 op = true) :
    (p : Int) + 6 + word32 disp 0 ∈ scanSegment B phdrs cet s := by
  have hskip : isJcc32 0x0f = false := by decide
  have hwithin := h.within (Nat.zero_lt_succ _)
  rw [List.length_cons, List.length_cons, hsize] at hwithin
  have hhead := h.head
  have hsecond : s.Holds B (p + 1) (op :: disp) := h.tail
  have hdisp : s.Holds B (p + 2) disp := h.tail.tail
  refine mem_scanSegment hcode hwithin.1 (by omega) ?_ ?_
  · rw [hhead]
    exact hskip
  · rw [scanStep_jcc B phdrs cet _ hhead (by rw [hsecond.head]; exact hop) hwithin.2, hdisp.rel32 hsize]
    exact List.mem_cons_self

theorem mem_branch (hcode : isCode s = true) {x : PCRelative} (hx : x.IsBranch)
    (hloop : ∀ op, x.form = .short op → isLoop op = false) (hxbegin : x.form ≠ .xbegin)
    (h : s.Holds B p x.bytes) : (p : Int) + x.bytes.length + x.rel ∈ scanSegment B phdrs cet s := by
  have hlength := branch_length hx
  have hcode' : s.Holds B (p + x.pres.length) (x.form.head ++ x.disp) := by
    unfold PCRelative.bytes at h
    rw [List.append_assoc x.pres] at h
    exact h.left.right
  have hvalid := x.valid
  have hsize := x.disp_size
  unfold PCRelative.rel
  cases hform : x.form with
  | operand o reg =>
      unfold PCRelative.IsBranch at hx
      rw [hform] at hx
      exact hx.elim
  | xbegin => exact absurd hform hxbegin
  | short op =>
      rw [hform] at hlength hcode' hvalid hsize
      have hop : op = 0xe3 ∨ op = 0xeb ∨ isJcc8 op = true := by
        rcases hvalid.2 with hop | hop | hop
        · exact Or.inr (Or.inr hop)
        · rw [hloop op hform] at hop
          cases hop
        · exact hop.elim Or.inl fun hop => Or.inr (Or.inl hop)
      have hmem := mem_short phdrs cet hcode hcode' hsize hop
      have heq : (p : Int) + x.bytes.length = ((p + x.pres.length : Nat) : Int) + 2 := by
        rw [hlength]
        show (p : Int) + ((x.pres.length + 1 + 1 : Nat) : Int) = _
        omega
      rw [heq]
      exact hmem
  | near op =>
      rw [hform] at hlength hcode' hvalid hsize
      have hmem := (mem_near phdrs cet hcode hcode' hsize hvalid.2).1
      have heq : (p : Int) + x.bytes.length = ((p + x.pres.length : Nat) : Int) + 5 := by
        rw [hlength]
        show (p : Int) + ((x.pres.length + 1 + 4 : Nat) : Int) = _
        omega
      rw [heq]
      exact hmem
  | jcc op =>
      rw [hform] at hlength hcode' hvalid hsize
      have hmem := mem_jcc phdrs cet hcode hcode' hsize hvalid.2
      have heq : (p : Int) + x.bytes.length = ((p + x.pres.length : Nat) : Int) + 6 := by
        rw [hlength]
        show (p : Int) + ((x.pres.length + 2 + 4 : Nat) : Int) = _
        omega
      rw [heq]
      exact hmem

theorem mem_call (hcode : isCode s = true) {x : PCRelative} (hform : x.form = .near 0xe8)
    (h : s.Holds B p x.bytes) : ((p + x.bytes.length : Nat) : Int) ∈ scanSegment B phdrs cet s := by
  have hx : x.IsBranch := by
    unfold PCRelative.IsBranch
    rw [hform]
    trivial
  have hlength := branch_length hx
  have hcode' : s.Holds B (p + x.pres.length) (x.form.head ++ x.disp) := by
    unfold PCRelative.bytes at h
    rw [List.append_assoc x.pres] at h
    exact h.left.right
  have hsize := x.disp_size
  rw [hform] at hlength hcode' hsize
  have hmem := (mem_near phdrs cet hcode hcode' hsize (Or.inl rfl)).2 rfl
  have heq : p + x.bytes.length = p + x.pres.length + 5 := by
    rw [hlength]
    show p + (x.pres.length + 1 + 4) = _
    omega
  rw [heq]
  exact hmem

/-- The size of an operand is right, but for the displacement behind a SIB byte: only two of the three
bits of its base are looked at. -/
theorem getModRMSize_eq {modRM sib : UInt8} {bytes : List UInt8} {size : Nat} (h0 : byteAt bytes 0 = modRM)
    (hsize : operandSize modRM sib ≤ size)
    (hbase : ¬(modRM >>> 6 = 0 ∧ modRM &&& 0x7 = 4 ∧ sib &&& 0x7 = 5)) :
    getModRMSize bytes size = some (operandSize modRM sib) := by
  have hmod : ∀ b : UInt8, (b &&& 0xc0) >>> 6 = b >>> 6 := by decide
  have hcases : ∀ b : UInt8, b >>> 6 = 0 ∨ b >>> 6 = 1 ∨ b >>> 6 = 2 ∨ b >>> 6 = 3 := by decide
  have hthree : ∀ b : UInt8, b &&& 0x3 ≠ 5 := by decide
  unfold getModRMSize
  unfold operandSize at hsize ⊢
  simp only [h0, hmod] at hsize ⊢
  have hmod := hcases modRM
  generalize modRM >>> 6 = mod at hsize hbase hmod ⊢
  generalize modRM &&& 0x7 = rm at hsize hbase ⊢
  by_cases hrm : rm = 4
  · subst hrm
    rcases hmod with rfl | rfl | rfl | rfl
    · have hsib : ¬(sib &&& 0x7 = 5) := fun hsib => hbase ⟨rfl, rfl, hsib⟩
      simp [hsib, hthree] at hsize ⊢
      omega
    · simp at hsize ⊢
      omega
    · simp at hsize ⊢
      omega
    · simp at hsize ⊢
      omega
  · rcases hmod with rfl | rfl | rfl | rfl
    · by_cases hrm5 : rm = 5
      · subst hrm5
        simp at hsize ⊢
        omega
      · simp [hrm, hrm5] at hsize ⊢
        omega
    · simp [hrm] at hsize ⊢
      omega
    · simp [hrm] at hsize ⊢
      omega
    · simp at hsize ⊢
      omega

/-- The round at the opcode of an indirect call marks the instruction behind it. -/
theorem mem_indirect (hcode : isCode s = true) {x : IndirectCall} (h : s.Holds B p x.bytes)
    (hbase : ¬(byteAt x.operand 0 >>> 6 = 0 ∧ byteAt x.operand 0 &&& 0x7 = 4 ∧ byteAt x.operand 1 &&& 0x7 = 5)) :
    ((p + x.bytes.length : Nat) : Int) ∈ scanSegment B phdrs cet s := by
  have hpos : 1 ≤ operandSize (byteAt x.operand 0) (byteAt x.operand 1) := by
    unfold operandSize
    simp only
    split
    · exact Nat.le_refl 1
    · split <;> omega
  have hsize := x.operand_size
  have hlength : x.bytes.length = x.pres.length + (x.operand.length + 1) := by
    unfold IndirectCall.bytes
    rw [List.length_append, List.length_cons]
  have hcall : s.Holds B (p + x.pres.length) (0xff :: x.operand) := h.right
  have hwithin := hcall.within (Nat.zero_lt_succ _)
  rw [List.length_cons] at hwithin
  have hskip : isJcc32 0xff = false := by decide
  have hhead := hcall.head
  have hmodRM : B.original (p + x.pres.length + 1) = byteAt x.operand 0 := (hcall.tail 0 (by omega)).2
  have hmodRM : byteAt (dataFrom B (p + x.pres.length + 1) (segmentEnd B s - (p + x.pres.length + 1))) 0 =
      byteAt x.operand 0 := by
    rw [byteAt_dataFrom (by omega)]
    exact hmodRM
  refine mem_scanSegment hcode hwithin.1 (by omega) (by rw [hhead]; exact hskip) ?_
  rw [scanStep_indirect B phdrs cet _ hhead (by omega) (getModRMSize_eq hmodRM (by omega) hbase), ← hsize, hlength]
  exact List.mem_singleton.mpr (by omega)

end

/-! ### The analysis -/

/-- What the scan or the other parts of the analysis find is a target. Without an analysis everything is a
target; the offsets of the ELF header are never marked. -/
theorem isTarget_found {B : Binary} {phdrs : List Phdr} (features : Option Nat) {indirect : List Int} {q : Nat}
    (htargets : B.targets = none) (hq : 64 ≤ q) (hsize : q < B.size)
    (hmem : ∀ cet, (q : Int) ∈ phdrs.flatMap (scanSegment B phdrs cet) ++ indirect) :
    isTarget (targetAnalysis B (findTargets B phdrs features indirect)) q = true := by
  have hmarked : ∀ targets, findTargets B phdrs features indirect = some targets → targets q = true := by
    intro targets h
    unfold findTargets at h
    simp only at h
    split at h
    · cases h
    · cases h
      exact foldl_setTarget hq hsize (Or.inl (hmem _))
  have hall : (findTargets B phdrs features indirect).all (fun targets => targets q) = true := by
    cases h : findTargets B phdrs features indirect with
    | none => rfl
    | some targets => exact hmarked targets h
  unfold isTarget targetAnalysis
  split
  · rw [htargets]
    rfl
  · cases B.mode with
    | ELF_EXE => exact hall
    | ELF_DSO => exact hall
    | _ =>
        rw [htargets]
        rfl

instance (B : Binary) (s t : Phdr) (p q : Nat) (x : Transfer) : Decidable (x.LeadsTo B s t p q) := by
  cases x <;> unfold Transfer.LeadsTo <;> infer_instance

/-- An image with code behind the ELF header. -/
def codeImage (code : List UInt8) : Binary :=
  newBinary
    { size := 64 + code.length
      bytes := fun p => if p < 64 then 0 else byteAt code (p - 64)
      pic := true, segments := [], image_size := 0 }
    .ELF_EXE { defaultOptions with option_OCFR := true }

def codeSegment (p_offset : Nat) (p_vaddr : Int) : Phdr :=
  { p_type := PT_LOAD, p_flags := PF_X, p_offset := p_offset, p_vaddr := p_vaddr, p_filesz := 16, p_memsz := 16 }

/-- `jmp` to the next instruction. -/
def sampleJmp : PCRelative :=
  ⟨[], .near 0xe9, [0, 0, 0, 0], [], ⟨by simp, by decide⟩, rfl, List.length_nil, by decide⟩

def jmpImage : Binary := codeImage (sampleJmp.bytes ++ List.replicate 11 0)

/-- A transfer that leads to an offset that is not marked. -/
def Missed (B : Binary) (phdrs : List Phdr) (s t : Phdr) (p q : Nat) (x : Transfer) : Prop :=
  (s ∈ phdrs ∧ isCode s = true ∧ t ∈ phdrs ∧ isCode t = true ∧ s.Holds B p x.bytes ∧ 64 ≤ q) ∧
    x.LeadsTo B s t p q ∧ isTarget (targetAnalysis B (findTargets B phdrs none [])) q = false

instance (B : Binary) (phdrs : List Phdr) (s t : Phdr) (p q : Nat) (x : Transfer) :
    Decidable (Missed B phdrs s t p q x) := by
  unfold Missed
  infer_instance

/-- `xbegin` to the next instruction. -/
def sampleXbegin : PCRelative :=
  ⟨[], .xbegin, [0, 0, 0, 0], [], by simp [Form.Valid], rfl, List.length_nil, by decide⟩

/-- `jmp` to address 0x401050 from 0x400040. -/
def sampleFar : PCRelative :=
  ⟨[], .near 0xe9, [0x0b, 0x10, 0, 0], [], ⟨by simp, by decide⟩, rfl, List.length_nil, by decide⟩

/-- `call *0x0`, with a SIB byte. -/
def sampleCall : IndirectCall :=
  ⟨[], [0x14, 0x25, 0, 0, 0, 0], by simp, by decide, by decide⟩

end E9Patch
