import E9Patch.CFRModel

/-!
The dynamic function symbols in the target analysis of `e9CFR.cpp`. The number of symbols is nowhere in the
file; it is read off the GNU hash section, whose chains cover the symbols from `symoffset` on. A chain ends
with the value whose lowest bit is set, and a bucket has the first symbol of its chain, or zero.
-/

namespace E9Patch
open Bytes

def SHN_UNDEF : Nat := 0
def STT_FUNC : Nat := 2

/-- A symbol of `.dynsym`, as far as it is read. -/
structure Elf64_Sym where
  st_info : Nat
  st_shndx : Nat
  st_value : Int
  deriving DecidableEq, Repr

/-- A GNU hash section. `chain` is the memory behind the buckets. -/
structure hshtab_s where
  symoffset : Nat
  buckets : List Nat
  chain : Nat → Nat

/-- The loop to the end of a chain; `nsyms` is unsigned and has 32 bits. -/
def chainLoop (hshtab : hshtab_s) : Nat → Nat → Option Nat
  | 0, _ => none
  | fuel + 1, nsyms =>
    if nsyms ≥ hshtab.symoffset ∧ hshtab.chain (nsyms - hshtab.symoffset) % 2 = 0 then
      chainLoop hshtab fuel ((nsyms + 1) % 2 ^ 32)
    else some nsyms

/-- The number of symbols, if the loop ends within `fuel` rounds. -/
def countSymbols (hshtab : hshtab_s) (fuel : Nat) : Option Nat :=
  chainLoop hshtab fuel (hshtab.buckets.foldl max 0)

/-- A defined function. -/
def Elf64_Sym.isFunction (sym : Elf64_Sym) : Bool := sym.st_shndx ≠ SHN_UNDEF ∧ sym.st_info &&& 0xf = STT_FUNC

/-- The loop over the symbols. -/
def markSymbols (size : Nat) (phdrs : List Phdr) (symtab : Nat → Elf64_Sym) (nsyms : Nat) (targets : Nat → Bool) :
    Nat → Bool :=
  (List.range nsyms).foldl (fun targets i =>
    if (symtab i).isFunction then setTarget size targets (addrToOffset phdrs (symtab i).st_value true) else targets)
    targets

/-! ### Sections -/

/-- The section covers the symbols from `symoffset` up to `n`: these are cut into chains, each with a bucket
that has its first symbol, and no chain is without. Symbol zero is reserved. -/
structure hshtab_s.Covers (hshtab : hshtab_s) (n : Nat) : Prop where
  reserved : 0 < hshtab.symoffset
  le : hshtab.symoffset ≤ n
  small : n < 2 ^ 32
  bucket : ∀ b ∈ hshtab.buckets, b = 0 ∨ hshtab.symoffset ≤ b ∧ b < n ∧
    (b = hshtab.symoffset ∨ hshtab.chain (b - 1 - hshtab.symoffset) % 2 = 1)
  start : ∀ b, hshtab.symoffset ≤ b → b < n →
    b = hshtab.symoffset ∨ hshtab.chain (b - 1 - hshtab.symoffset) % 2 = 1 → b ∈ hshtab.buckets
  ended : hshtab.symoffset < n → hshtab.chain (n - 1 - hshtab.symoffset) % 2 = 1

theorem foldl_max_le {l : List Nat} {m a : Nat} : l.foldl max m ≤ a ↔ m ≤ a ∧ ∀ b ∈ l, b ≤ a := by
  induction l generalizing m with
  | nil => simp
  | cons b l ih =>
      rw [List.foldl_cons, ih, Nat.max_le, List.forall_mem_cons, and_assoc]

theorem foldl_max_mem {l : List Nat} {m : Nat} : l.foldl max m = m ∨ l.foldl max m ∈ l := by
  induction l generalizing m with
  | nil => exact Or.inl rfl
  | cons b l ih =>
      rw [List.foldl_cons]
      rcases ih (m := max m b) with h | h
      · rw [h]
        rcases Nat.le_total m b with hle | hle
        · rw [Nat.max_eq_right hle]
          exact Or.inr List.mem_cons_self
        · exact Or.inl (Nat.max_eq_left hle)
      · exact Or.inr (List.mem_cons_of_mem b h)

section
variable {hshtab : hshtab_s} {n : Nat}

/-- The loop ends at the first value with the lowest bit. -/
theorem chainLoop_ends {last : Nat} (hsmall : last < 2 ^ 32) (hlast : hshtab.chain (last - hshtab.symoffset) % 2 = 1)
    {i fuel : Nat} (hi : hshtab.symoffset ≤ i) (hle : i ≤ last) (hfuel : last - i < fuel)
    (hbefore : ∀ j, i ≤ j → j < last → hshtab.chain (j - hshtab.symoffset) % 2 = 0) :
    chainLoop hshtab fuel i = some last := by
  induction fuel generalizing i with
  | zero => omega
  | succ fuel ih =>
      unfold chainLoop
      rcases Nat.lt_or_eq_of_le hle with hlt | rfl
      · rw [if_pos ⟨hi, hbefore i (Nat.le_refl i) hlt⟩, Nat.mod_eq_of_lt (by omega)]
        apply ih
        · omega
        · exact hlt
        · omega
        · intro j hj
          exact hbefore j (by omega)
      · rw [if_neg (by omega)]

/-- What is computed is the last symbol, and not the one past it; and zero where nothing is hashed. -/
theorem countSymbols_eq (h : hshtab.Covers n) {fuel : Nat} (hfuel : n < fuel) :
    countSymbols hshtab fuel = some (if hshtab.symoffset < n then n - 1 else 0) := by
  unfold countSymbols
  split
  · rename_i hlt
    have hmax := (foldl_max_le (l := hshtab.buckets) (m := 0)).mp (Nat.le_refl _)
    generalize hm : hshtab.buckets.foldl max 0 = m at hmax
    have hfirst := hmax.2 _ (h.start hshtab.symoffset (Nat.le_refl _) hlt (Or.inl rfl))
    have hmem : m ∈ hshtab.buckets := by
      rcases foldl_max_mem (l := hshtab.buckets) (m := 0) with hz | hmem
      · have := h.reserved
        omega
      · rwa [hm] at hmem
    have hrange : hshtab.symoffset ≤ m ∧ m < n := by
      rcases h.bucket m hmem with rfl | ⟨h1, h2, -⟩
      · have := h.reserved
        omega
      · exact ⟨h1, h2⟩
    apply chainLoop_ends
    · have := h.small
      omega
    · exact h.ended hlt
    · exact hrange.1
    · omega
    · omega
    · -- a chain that ended earlier would have another one behind it, with a larger bucket
      intro j hmj hj
      by_contra hodd
      have hstart := h.start (j + 1) (by omega) (by omega) (Or.inr (by
        rw [Nat.add_sub_cancel]
        omega))
      have := hmax.2 _ hstart
      omega
  · rename_i hempty
    have hzero : hshtab.buckets.foldl max 0 = 0 := by
      apply Nat.le_zero.mp
      rw [foldl_max_le]
      refine ⟨Nat.le_refl 0, ?_⟩
      intro b hb
      rcases h.bucket b hb with rfl | ⟨h1, h2, -⟩
      · exact Nat.le_refl 0
      · have := h.le
        omega
    obtain ⟨fuel, rfl⟩ : ∃ f, fuel = f + 1 := ⟨fuel - 1, by omega⟩
    rw [hzero]
    unfold chainLoop
    have := h.reserved
    rw [if_neg (by omega)]

end

/-! ### Marks -/

/-- An offset that can be marked. -/
def Markable (size : Nat) (offset : Int) : Prop := EHDR_SIZE ≤ offset ∧ offset < size

section
variable {size : Nat} {phdrs : List Phdr} {symtab : Nat → Elf64_Sym} {targets : Nat → Bool}

theorem setTarget_iff {offset : Int} {q : Nat} : setTarget size targets offset q = true ↔
    targets q = true ∨ Markable size offset ∧ (q : Int) = offset := by
  unfold setTarget Markable
  split
  · rename_i hout
    constructor
    · exact Or.inl
    · rintro (h | ⟨hin, -⟩)
      · exact h
      · omega
  · rename_i hin
    simp only
    split
    · rename_i hq
      simp only [hq, true_iff]
      exact Or.inr ⟨by omega, trivial⟩
    · rename_i hq
      simp only [hq, and_false, or_false]

theorem markSymbols_iff {nsyms q : Nat} : markSymbols size phdrs symtab nsyms targets q = true ↔
    targets q = true ∨ ∃ i < nsyms, (symtab i).isFunction = true ∧
      Markable size (addrToOffset phdrs (symtab i).st_value true) ∧
      (q : Int) = addrToOffset phdrs (symtab i).st_value true := by
  induction nsyms with
  | zero => simp [markSymbols]
  | succ nsyms ih =>
      have hstep : markSymbols size phdrs symtab (nsyms + 1) targets =
          if (symtab nsyms).isFunction then
            setTarget size (markSymbols size phdrs symtab nsyms targets)
              (addrToOffset phdrs (symtab nsyms).st_value true)
          else markSymbols size phdrs symtab nsyms targets := by
        unfold markSymbols
        rw [List.range_succ, List.foldl_append]
        rfl
      rw [hstep]
      constructor
      · intro h
        have hcases : markSymbols size phdrs symtab nsyms targets q = true ∨ (symtab nsyms).isFunction = true ∧
            Markable size (addrToOffset phdrs (symtab nsyms).st_value true) ∧
            (q : Int) = addrToOffset phdrs (symtab nsyms).st_value true := by
          split at h
          · rename_i hf
            exact (setTarget_iff.mp h).imp id fun hq => ⟨hf, hq⟩
          · exact Or.inl h
        rcases hcases with h | h
        · rcases ih.mp h with h | ⟨i, hi, h⟩
          · exact Or.inl h
          · exact Or.inr ⟨i, Nat.lt_succ_of_lt hi, h⟩
        · exact Or.inr ⟨nsyms, Nat.lt_succ_self nsyms, h⟩
      · intro h
        have hprev : (targets q = true ∨ ∃ i < nsyms, (symtab i).isFunction = true ∧
            Markable size (addrToOffset phdrs (symtab i).st_value true) ∧
            (q : Int) = addrToOffset phdrs (symtab i).st_value true) ∨ (symtab nsyms).isFunction = true ∧
            Markable size (addrToOffset phdrs (symtab nsyms).st_value true) ∧
            (q : Int) = addrToOffset phdrs (symtab nsyms).st_value true := by
          rcases h with h | ⟨i, hi, h⟩
          · exact Or.inl (Or.inl h)
          · rcases Nat.lt_succ_iff_lt_or_eq.mp hi with hlt | rfl
            · exact Or.inl (Or.inr ⟨i, hlt, h⟩)
            · exact Or.inr h
        rcases hprev with hprev | ⟨hf, hq⟩
        · have hm := ih.mpr hprev
          split
          · exact setTarget_iff.mpr (Or.inl hm)
          · exact hm
        · rw [if_pos hf]
          exact setTarget_iff.mpr (Or.inr hq)

end

/-- Every defined function among the first `n` symbols that lies in an executable segment of the file is a
target. -/
def FunctionsMarked (size : Nat) (phdrs : List Phdr) (symtab : Nat → Elf64_Sym) (n : Nat) (targets : Nat → Bool) :
    Prop :=
  ∀ i < n, (symtab i).isFunction = true → ∀ q : Nat, (q : Int) = addrToOffset phdrs (symtab i).st_value true →
    Markable size q → targets q = true

/-- The count is never that of the symbols: it is one less, or zero where no symbol is hashed. All functions
are targets just when those that are not counted are targets already, or lie where another function does
that is counted. -/
theorem symbols_miscounted {hshtab : hshtab_s} {n fuel : Nat} (h : hshtab.Covers n) (hfuel : n < fuel) :
    ∃ nsyms, countSymbols hshtab fuel = some nsyms ∧ nsyms ≠ n ∧ (hshtab.symoffset < n → nsyms + 1 = n) ∧
      ∀ size phdrs symtab targets, FunctionsMarked size phdrs symtab n (markSymbols size phdrs symtab nsyms targets) ↔
        ∀ i, nsyms ≤ i → i < n → (symtab i).isFunction = true →
          ∀ q : Nat, (q : Int) = addrToOffset phdrs (symtab i).st_value true → Markable size q →
            targets q = true ∨ ∃ j < nsyms, (symtab j).isFunction = true ∧
              addrToOffset phdrs (symtab j).st_value true = addrToOffset phdrs (symtab i).st_value true := by
  have hreserved := h.reserved
  have hle := h.le
  refine ⟨_, countSymbols_eq h hfuel, ?_, ?_, ?_⟩
  · split <;> omega
  · intro hlt
    rw [if_pos hlt]
    omega
  · intro size phdrs symtab targets
    generalize (if hshtab.symoffset < n then n - 1 else 0) = nsyms
    constructor
    · intro hall i hi hin hf q hq hmark
      rcases markSymbols_iff.mp (hall i hin hf q hq hmark) with h | ⟨j, hj, hjf, -, hjq⟩
      · exact Or.inl h
      · exact Or.inr ⟨j, hj, hjf, hjq.symm.trans hq⟩
    · intro hrest i hin hf q hq hmark
      rw [markSymbols_iff]
      by_cases hi : i < nsyms
      · exact Or.inr ⟨i, hi, hf, hq ▸ hmark, hq⟩
      · rcases hrest i (Nat.le_of_not_lt hi) hin hf q hq hmark with h | ⟨j, hj, hjf, hjq⟩
        · exact Or.inl h
        · exact Or.inr ⟨j, hj, hjf, by rw [hjq, ← hq]; exact hmark, hq.trans hjq.symm⟩

/-! ### One symbol -/

/-- A section with one bucket, whose chain is the one symbol behind the reserved one. -/
def oneSymbol : hshtab_s := ⟨1, [1], fun _ => 1⟩

theorem oneSymbol_covers : oneSymbol.Covers 2 := by
  constructor
  · decide
  · decide
  · decide
  · decide
  · intro b hb hb2 _
    obtain rfl : b = 1 := by
      have : 1 ≤ b := hb
      omega
    exact List.mem_singleton.mpr rfl
  · intro _
    rfl

theorem oneSymbol_miscounted : ∃ nsyms, countSymbols oneSymbol 3 = some nsyms ∧ nsyms ≠ 2 ∧
    (oneSymbol.symoffset < 2 → nsyms + 1 = 2) ∧
    ∀ size phdrs symtab targets, FunctionsMarked size phdrs symtab 2 (markSymbols size phdrs symtab nsyms targets) ↔
      ∀ i, nsyms ≤ i → i < 2 → (symtab i).isFunction = true →
        ∀ q : Nat, (q : Int) = addrToOffset phdrs (symtab i).st_value true → Markable size q →
          targets q = true ∨ ∃ j < nsyms, (symtab j).isFunction = true ∧
            addrToOffset phdrs (symtab j).st_value true = addrToOffset phdrs (symtab i).st_value true :=
  symbols_miscounted oneSymbol_covers (by decide)

/-- The function that the one symbol is does not become a target. -/
theorem oneSymbol_unmarked : oneSymbol.Covers 2 ∧ countSymbols oneSymbol 3 = some 1 ∧
    ¬FunctionsMarked 0x2000 [⟨PT_LOAD, PF_X, 0x1000, 0x1000, 0x1000, 0x1000⟩]
      (fun i => if i = 1 then ⟨0x12, 7, 0x1080⟩ else ⟨0, 0, 0⟩) 2
      (markSymbols 0x2000 [⟨PT_LOAD, PF_X, 0x1000, 0x1000, 0x1000, 0x1000⟩]
        (fun i => if i = 1 then ⟨0x12, 7, 0x1080⟩ else ⟨0, 0, 0⟩) 1 fun _ => false) := by
  refine ⟨oneSymbol_covers, rfl, ?_⟩
  intro h
  have hmarked := h 1 (by decide) (by decide) 0x1080 (by decide) ⟨by decide, by decide⟩
  revert hmarked
  decide

end E9Patch
