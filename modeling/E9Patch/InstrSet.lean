import E9Patch.BinarySearch
import E9Patch.Reader
import E9Patch.Refactor

/-!
The set of the known instructions (`e9misc.cpp`). Memory for them is taken from its upper end downwards, and they
are sent in reverse order, so that the array from `lb` to `ub` is in ascending order of the offsets. It is searched
by halving; what a search returns and which memory it reads is stated for a set by itself, and then for a binary's.
-/

namespace E9Patch
open Fallible

/-- The instructions from `lb` to `ub`. -/
structure InstrSet where
  Is : List Instr

namespace InstrSet

def size (S : InstrSet) : Nat := S.Is.length

def front (S : InstrSet) : Option Instr := S.Is.head?

/-- `new (Is.alloc()) Instr(..)`. -/
def alloc (S : InstrSet) (I : Instr) : InstrSet := ⟨I :: S.Is⟩

/-- `Is[mid]`. At `ub` is the sentinel, and other memory is not the set's. -/
def place (S : InstrSet) (mid : Int) : Except Reader.Fault Instr :=
  if mid < 0 then .error .outOfBounds
  else if mid = S.size then .ok Instr.zero
  else match S.Is[mid.toNat]? with
    | none => .error .outOfBounds
    | some I => .ok I

/-- The loop of `lower_bound`: the last place, and whether the offset was found there. -/
def lowerLoop (S : InstrSet) (offset : Int) : Nat → Int → Int → Int → Except Reader.Fault (Int × Bool)
  | 0, _, _, _ => .error .diverges
  | fuel + 1, lo, hi, mid =>
    if lo ≤ hi then do
      let mid := (lo + hi) / 2
      let I ← S.place mid
      if offset > I.offset then lowerLoop S offset fuel (mid + 1) hi mid
      else if offset < I.offset then lowerLoop S offset fuel lo (mid - 1) mid
      else .ok (mid, true)
    else .ok (mid, false)

/-- Find the first instruction >= the offset. -/
def lower_bound (S : InstrSet) (offset : Int) : Except Reader.Fault (Option Nat) :=
  if S.size = 0 then .ok none
  else do
    let r ← S.lowerLoop offset (S.size + 1) 0 (S.size - 1) 0
    if r.2 then .ok (some r.1.toNat)
    else do
      let I ← S.place r.1
      let mid := if I.offset < offset then r.1 + 1 else r.1
      let I ← S.place mid
      .ok (if I.offset = 0 then none else some mid.toNat)

/-- Find the instruction for the given offset. -/
def find (S : InstrSet) (offset : Int) : Except Reader.Fault (Option Nat) := do
  match ← S.lower_bound offset with
  | none => .ok none
  | some mid => do
    let I ← S.place mid
    .ok (if I.offset ≠ offset then none else some mid)

/-! ### Filling -/

/-- The set is filled in strictly descending order of the offsets. -/
inductive Filled : InstrSet → Prop where
  | empty : Filled ⟨[]⟩
  | alloc {S : InstrSet} {I : Instr} : Filled S → (∀ J ∈ S.front, I.offset < J.offset) → Filled (S.alloc I)

/-- In the array the offsets ascend. -/
theorem Filled.ascending {S : InstrSet} (h : Filled S) : S.Is.Pairwise fun I J => I.offset < J.offset := by
  induction h with
  | empty => exact List.Pairwise.nil
  | @alloc S I _ hfront ih =>
      refine List.pairwise_cons.mpr ⟨fun J hJ => ?_, ih⟩
      cases hIs : S.Is with
      | nil =>
          rw [hIs] at hJ
          cases hJ
      | cons K rest =>
          have hK : I.offset < K.offset := hfront K (by rw [front, hIs]; rfl)
          rw [hIs] at hJ ih
          rcases List.mem_cons.mp hJ with rfl | hJ
          · exact hK
          · exact hK.trans ((List.pairwise_cons.mp ih).1 J hJ)

theorem filled_of_ascending {Is : List Instr} (h : Is.Pairwise fun I J => I.offset < J.offset) : Filled ⟨Is⟩ := by
  induction Is with
  | nil => exact .empty
  | cons I Is ih =>
      obtain ⟨hI, hIs⟩ := List.pairwise_cons.mp h
      exact (ih hIs).alloc fun J hJ => hI J (List.mem_of_mem_head? hJ)

/-! ### The search -/

variable {S : InstrSet}

theorem place_some {i : Nat} {I : Instr} (h : S.Is[i]? = some I) : S.place i = .ok I := by
  have hi : i < S.size := (List.getElem?_eq_some_iff.mp h).1
  rw [place, if_neg (by omega), if_neg (by omega), Int.toNat_natCast, h]

theorem place_size : S.place S.size = .ok Instr.zero := by
  rw [place, if_neg (by omega), if_pos rfl]

/-- On which side of an offset an instruction is. -/
def sideOf (offset : Int) (I : Instr) : Ordering := BinarySearch.side offset I.offset I.offset

def sideAt (S : InstrSet) (offset : Int) (i : Nat) : Ordering := (S.Is[i]?.map (sideOf offset)).getD .gt

/-- The loop is the search by halving. When it fails, its last place is beside the one where the offset would be. -/
theorem lowerLoop_eq {offset : Int} {fuel : Nat} {lo hi mid : Int} (hlo : 0 ≤ lo) (hhi : hi < S.size)
    (hfuel : hi + 1 - lo ≤ fuel)
    (hmid : lo ≤ hi ∨ lo = hi + 1 ∧ 0 ≤ mid ∧ mid < S.size ∧ (mid = lo - 1 ∨ mid = lo)) :
    (∃ i, BinarySearch.loop (S.sideAt offset) fuel lo hi = .found i ∧
      S.lowerLoop offset (fuel + 1) lo hi mid = .ok ((i : Int), true)) ∨
    ∃ (k : Nat) (last : Int), BinarySearch.loop (S.sideAt offset) fuel lo hi = .missing k ∧
      S.lowerLoop offset (fuel + 1) lo hi mid = .ok (last, false) ∧
      0 ≤ last ∧ last < S.size ∧ (last = k - 1 ∨ last = k) := by
  induction fuel generalizing lo hi mid with
  | zero =>
      obtain hle | ⟨-, h0, h1, hm⟩ := hmid
      · omega
      · refine Or.inr ⟨lo.toNat, mid, rfl, ?_, h0, h1, by omega⟩
        rw [lowerLoop, if_neg (by omega)]
  | succ fuel ih =>
      rw [lowerLoop, BinarySearch.loop]
      by_cases hle : lo ≤ hi
      · rw [if_pos hle, if_pos hle]
        generalize hm : (lo + hi) / 2 = m
        have hm0 : 0 ≤ m := by omega
        have hmn : m.toNat < S.Is.length := by
          have : hi < (S.Is.length : Int) := hhi
          omega
        have hplace : S.place m = .ok S.Is[m.toNat] := by
          have h := place_some (List.getElem?_eq_getElem hmn)
          rwa [Int.toNat_of_nonneg hm0] at h
        have hside : S.sideAt offset m.toNat =
            BinarySearch.side offset S.Is[m.toNat].offset S.Is[m.toNat].offset := by
          rw [sideAt, List.getElem?_eq_getElem hmn]
          rfl
        dsimp only
        rw [hplace, Reader.ok_bind, hside, BinarySearch.side]
        by_cases hgt : offset > S.Is[m.toNat].offset
        · rw [if_pos hgt, if_pos hgt]
          exact ih (by omega) hhi (by omega) (by omega)
        · rw [if_neg hgt, if_neg hgt]
          by_cases hlt : offset < S.Is[m.toNat].offset
          · rw [if_pos hlt, if_pos hlt]
            exact ih hlo (by omega) (by omega) (by omega)
          · rw [if_neg hlt, if_neg hlt]
            exact Or.inl ⟨m.toNat, rfl, by rw [Int.toNat_of_nonneg hm0]⟩
      · obtain hle' | ⟨-, h0, h1, hm⟩ := hmid
        · exact absurd hle' hle
        · rw [if_neg hle, if_neg hle]
          exact Or.inr ⟨lo.toNat, mid, rfl, rfl, h0, h1, by omega⟩

/-- The place from which on no offset is below `x`. -/
structure StartsAt (S : InstrSet) (x : Int) (k : Nat) : Prop where
  size : k ≤ S.size
  below : ∀ I ∈ S.Is.take k, (I.offset : Int) < x
  above : ∀ I ∈ S.Is.drop k, x ≤ I.offset

theorem mem_drop_self {k : Nat} (hk : k < S.Is.length) : S.Is[k] ∈ S.Is.drop k := by
  rw [List.drop_eq_getElem_cons hk]
  exact List.mem_cons_self

theorem startsAt_of_offset (h : Filled S) {i : Nat} {I : Instr} (hI : S.Is[i]? = some I) :
    StartsAt S I.offset i := by
  obtain ⟨hi, rfl⟩ := List.getElem?_eq_some_iff.mp hI
  have hasc := h.ascending
  rw [← List.take_append_drop i S.Is, List.drop_eq_getElem_cons hi, List.pairwise_append,
    List.pairwise_cons] at hasc
  obtain ⟨-, ⟨habove, -⟩, hbelow⟩ := hasc
  refine ⟨Nat.le_of_lt hi, fun J hJ => ?_, fun J hJ => ?_⟩
  · have := hbelow J hJ _ List.mem_cons_self
    omega
  · rw [List.drop_eq_getElem_cons hi] at hJ
    rcases List.mem_cons.mp hJ with rfl | hJ
    · exact Int.le_refl _
    · have := habove J hJ
      omega

/-- What the search returns: the place, unless it is the end, or has an offset that looks like the sentinel's. -/
theorem lower_bound_eq (h : Filled S) (x : Int) : ∃ k, StartsAt S x k ∧
    S.lower_bound x = .ok (S.Is[k]?.bind fun I => if I.offset = 0 ∧ x < 0 then none else some k) := by
  rw [lower_bound]
  by_cases hsize : S.size = 0
  · rw [if_pos hsize]
    have hnil : S.Is = [] := List.length_eq_zero_iff.mp hsize
    refine ⟨0, ⟨Nat.zero_le _, by simp, by simp [hnil]⟩, ?_⟩
    rw [hnil]
    rfl
  · rw [if_neg hsize]
    have hdiv : BinarySearch.Divides (sideOf x) S.Is :=
      BinarySearch.divides_side (h.ascending.imp fun hlt => by omega) (fun I _ => Int.le_refl _) x
    rcases @lowerLoop_eq S x S.size 0 (S.size - 1) 0 (Int.le_refl 0) (by omega) (by omega) (by omega) with
      ⟨i, hfound, hrun⟩ | ⟨k, last, hmissing, hrun, h0, hlt, hlast⟩
    · obtain ⟨I, hI, heq⟩ := BinarySearch.searchList_found hfound
      obtain ⟨hle, hge⟩ := BinarySearch.side_eq_eq.mp heq
      have hx : x = I.offset := by omega
      refine ⟨i, hx ▸ startsAt_of_offset h hI, ?_⟩
      rw [hrun, Reader.ok_bind, if_pos rfl, Int.toNat_natCast, hI, Option.bind_some, if_neg (by omega)]
    · obtain ⟨hk, hbelow, habove⟩ := BinarySearch.searchList_missing hdiv hmissing
      have hbelow' : ∀ I ∈ S.Is.take k, (I.offset : Int) < x := fun I hI =>
        BinarySearch.side_eq_lt.mp (hbelow I hI)
      have habove' : ∀ I ∈ S.Is.drop k, x < I.offset := fun I hI =>
        (BinarySearch.side_eq_gt (Int.le_refl _)).mp (habove I hI)
      refine ⟨k, ⟨hk, hbelow', fun I hI => Int.le_of_lt (habove' I hI)⟩, ?_⟩
      have hlast' : last.toNat < S.Is.length := by
        have : last < (S.Is.length : Int) := hlt
        omega
      have hplace : S.place last = .ok S.Is[last.toNat] := by
        have h := place_some (List.getElem?_eq_getElem hlast')
        rwa [Int.toNat_of_nonneg h0] at h
      -- the last place is the one before `k`, or `k` itself
      have hmid : (if (S.Is[last.toNat].offset : Int) < x then last + 1 else last) = k := by
        rcases hlast with heq | heq
        · have hmem : S.Is[last.toNat] ∈ S.Is.take k :=
            List.mem_take_iff_getElem.mpr ⟨last.toNat, by omega, rfl⟩
          rw [if_pos (hbelow' _ hmem)]
          omega
        · obtain rfl : last.toNat = k := by omega
          have hmem : S.Is[last.toNat] ∈ S.Is.drop last.toNat := mem_drop_self hlast'
          have := habove' _ hmem
          rw [if_neg (by omega)]
          exact heq
      rw [hrun, Reader.ok_bind, if_neg Bool.false_ne_true, hplace, Reader.ok_bind, hmid]
      dsimp only
      rcases Nat.lt_or_eq_of_le hk with hlt | rfl
      · have hI := List.getElem?_eq_getElem hlt
        rw [place_some hI, Reader.ok_bind, hI, Option.bind_some, Int.toNat_natCast]
        have hx : x < S.Is[k].offset := habove' _ (mem_drop_self hlt)
        by_cases hzero : S.Is[k].offset = 0
        · rw [if_pos hzero, if_pos ⟨hzero, by omega⟩]
        · rw [if_neg hzero, if_neg fun hboth => hzero hboth.1]
      · rw [show ((S.Is.length : Nat) : Int) = S.size from rfl, place_size, Reader.ok_bind,
          List.getElem?_eq_none (Nat.le_refl _)]
        rfl

theorem find_eq (h : Filled S) (x : Int) : ∃ k, StartsAt S x k ∧
    S.find x = .ok (S.Is[k]?.bind fun I => if (I.offset : Int) = x then some k else none) := by
  obtain ⟨k, hk, hrun⟩ := lower_bound_eq h x
  refine ⟨k, hk, ?_⟩
  rw [find, hrun, Reader.ok_bind]
  cases hI : S.Is[k]? with
  | none => rfl
  | some I =>
      rw [Option.bind_some, Option.bind_some]
      by_cases hzero : I.offset = 0 ∧ x < 0
      · rw [if_pos hzero, if_neg (by omega)]
      · rw [if_neg hzero]
        dsimp only
        rw [place_some hI, Reader.ok_bind]
        by_cases hx : (I.offset : Int) = x
        · rw [if_neg (not_not.mpr hx), if_pos hx]
        · rw [if_pos hx, if_neg hx]

/-- The instruction with the least offset that is not below `x`. -/
def LeastFrom (S : InstrSet) (x : Int) (k : Nat) : Prop :=
  ∃ I, S.Is[k]? = some I ∧ x ≤ I.offset ∧ ∀ J ∈ S.Is, x ≤ J.offset → I.offset ≤ J.offset

theorem StartsAt.unique {x : Int} {j k : Nat} (hj : StartsAt S x j) (hk : StartsAt S x k) : j = k := by
  have hle : ∀ {j k : Nat}, StartsAt S x j → StartsAt S x k → j ≤ k := by
    intro j k hj hk
    by_contra hlt
    have hsize : k < S.Is.length := Nat.lt_of_lt_of_le (Nat.lt_of_not_le hlt) hj.size
    have h1 := hj.below S.Is[k] (List.mem_take_iff_getElem.mpr ⟨k, by omega, rfl⟩)
    have h2 := hk.above S.Is[k] (mem_drop_self hsize)
    omega
  exact Nat.le_antisymm (hle hj hk) (hle hk hj)

theorem startsAt_iff_leastFrom (h : Filled S) {x : Int} {k : Nat} (hk : k < S.size) :
    StartsAt S x k ↔ LeastFrom S x k := by
  have hI : S.Is[k]? = some S.Is[k] := List.getElem?_eq_getElem hk
  have hat := startsAt_of_offset h hI
  constructor
  · intro hs
    refine ⟨_, hI, hs.above _ (mem_drop_self hk), fun J hJ hx => ?_⟩
    rw [← List.take_append_drop k S.Is, List.mem_append] at hJ
    rcases hJ with hJ | hJ
    · have := hs.below J hJ
      omega
    · have := hat.above J hJ
      omega
  · rintro ⟨I, hI', hx, hleast⟩
    obtain rfl : S.Is[k] = I := Option.some.inj (hI.symm.trans hI')
    refine ⟨Nat.le_of_lt hk, fun J hJ => ?_, fun J hJ => ?_⟩
    · have hlt := hat.below J hJ
      by_contra hge
      have := hleast J (List.mem_of_mem_take hJ) (by omega)
      omega
    · have := hat.above J hJ
      omega

/-- What the searches for a file offset return. The null pointer is the end. -/
structure SearchExact (S : InstrSet) (x : Nat) : Prop where
  reads : (∃ r, S.lower_bound x = .ok r) ∧ ∃ r, S.find x = .ok r
  least : ∀ k, S.lower_bound x = .ok (some k) ↔ LeastFrom S x k
  fin : S.lower_bound x = .ok none ↔ ∀ I ∈ S.Is, I.offset < x
  found : ∀ k, S.find x = .ok (some k) ↔ ∃ I, S.Is[k]? = some I ∧ I.offset = x
  missing : S.find x = .ok none ↔ ∀ I ∈ S.Is, I.offset ≠ x

theorem lower_bound_some_iff (h : Filled S) (x : Nat) (k : Nat) :
    S.lower_bound x = .ok (some k) ↔ LeastFrom S x k := by
  obtain ⟨j, hj, hrun⟩ := lower_bound_eq h x
  rw [hrun, Except.ok.injEq]
  constructor
  · intro hk
    obtain ⟨I, hI, hk⟩ := Option.bind_eq_some_iff.mp hk
    rw [if_neg (by omega), Option.some.injEq] at hk
    subst hk
    exact (startsAt_iff_leastFrom h (List.getElem?_eq_some_iff.mp hI).1).mp hj
  · intro hk
    have ⟨I, hI, _⟩ := hk
    have hsize : k < S.size := (List.getElem?_eq_some_iff.mp hI).1
    obtain rfl : j = k := hj.unique ((startsAt_iff_leastFrom h hsize).mpr hk)
    rw [hI, Option.bind_some, if_neg (by omega)]

theorem lower_bound_none_iff (h : Filled S) (x : Nat) :
    S.lower_bound x = .ok none ↔ ∀ I ∈ S.Is, I.offset < x := by
  obtain ⟨j, hj, hrun⟩ := lower_bound_eq h x
  rw [hrun, Except.ok.injEq]
  constructor
  · intro hnone I hI
    have hfin : S.size ≤ j := by
      by_contra hlt
      rw [List.getElem?_eq_getElem (Nat.lt_of_not_le hlt), Option.bind_some, if_neg (by omega)] at hnone
      cases hnone
    have := hj.below I (by rwa [List.take_of_length_le hfin])
    omega
  · intro hall
    rw [List.getElem?_eq_none]
    · rfl
    · by_contra hlt
      have h1 := hj.above _ (mem_drop_self (Nat.lt_of_not_le hlt))
      have h2 := hall _ (List.getElem_mem (Nat.lt_of_not_le hlt))
      omega

theorem find_some_iff (h : Filled S) (x : Int) (k : Nat) :
    S.find x = .ok (some k) ↔ ∃ I, S.Is[k]? = some I ∧ (I.offset : Int) = x := by
  obtain ⟨j, hj, hrun⟩ := find_eq h x
  rw [hrun, Except.ok.injEq]
  constructor
  · intro hk
    obtain ⟨I, hI, hk⟩ := Option.bind_eq_some_iff.mp hk
    split_ifs at hk with hx
    obtain rfl := Option.some.inj hk
    exact ⟨I, hI, hx⟩
  · rintro ⟨I, hI, rfl⟩
    obtain rfl := hj.unique (startsAt_of_offset h hI)
    rw [hI, Option.bind_some, if_pos rfl]

theorem find_none_iff (h : Filled S) (x : Int) : S.find x = .ok none ↔ ∀ I ∈ S.Is, (I.offset : Int) ≠ x := by
  constructor
  · intro hnone I hI hx
    obtain ⟨k, hk⟩ := List.mem_iff_getElem?.mp hI
    have hsome := (find_some_iff h x k).mpr ⟨I, hk, hx⟩
    rw [hnone] at hsome
    cases hsome
  · intro hall
    obtain ⟨j, -, hrun⟩ := find_eq h x
    rw [hrun]
    cases hI : S.Is[j]? with
    | none => rfl
    | some I => rw [Option.bind_some, if_neg (hall I (List.mem_of_getElem? hI))]

/-- **The search in the instruction set.** In a set filled in descending order the searches are exact, and read
nothing but the set and its sentinel. -/
theorem instr_search_exact (h : Filled S) (x : Nat) : SearchExact S x := by
  obtain ⟨j, -, hlower⟩ := lower_bound_eq h x
  obtain ⟨k, -, hfind⟩ := find_eq h x
  refine ⟨⟨⟨_, hlower⟩, _, hfind⟩, lower_bound_some_iff h x, lower_bound_none_iff h x, fun k => ?_, ?_⟩
  · rw [find_some_iff h]
    simp only [Int.natCast_inj]
  · rw [find_none_iff h]
    simp only [ne_eq, Int.natCast_inj]

/-- Three instructions, the first of them at the start of the file. -/
def threeInstrs : InstrSet := ⟨[{ Instr.zero with size := 1 }, { Instr.zero with offset := 1, size := 4 },
  { Instr.zero with offset := 9, size := 2 }]⟩

theorem threeInstrs_filled : Filled threeInstrs := filled_of_ascending (by decide)

theorem threeInstrs_search : Filled threeInstrs ∧ SearchExact threeInstrs 0 ∧ SearchExact threeInstrs 10 :=
  ⟨threeInstrs_filled, instr_search_exact threeInstrs_filled 0, instr_search_exact threeInstrs_filled 10⟩

/-! ### The set of a binary -/

/-- The array of a binary: the instruction that arrived last is the first. -/
def ofBinary (B : Binary) : InstrSet := ⟨(List.range B.count).map fun i => B.Is (B.count - 1 - i)⟩

theorem ofBinary_size (B : Binary) : (ofBinary B).size = B.count := by
  rw [size, ofBinary, List.length_map, List.length_range]

theorem ofBinary_get {B : Binary} {i : Nat} (hi : i < B.count) :
    (ofBinary B).Is[i]? = some (B.Is (B.count - 1 - i)) := by
  rw [ofBinary, List.getElem?_map, List.getElem?_range hi, Option.map_some]

theorem mem_ofBinary {B : Binary} {I : Instr} : I ∈ (ofBinary B).Is ↔ ∃ k < B.count, B.Is k = I := by
  rw [ofBinary, List.mem_map]
  constructor
  · rintro ⟨i, hi, rfl⟩
    have := List.mem_range.mp hi
    exact ⟨B.count - 1 - i, by omega, rfl⟩
  · rintro ⟨k, hk, rfl⟩
    refine ⟨B.count - 1 - k, List.mem_range.mpr (by omega), ?_⟩
    rw [show B.count - 1 - (B.count - 1 - k) = k by omega]

/-- An instruction message fills the set of the binary in descending order. -/
theorem parseInstruction_filled {B B' : Binary} {address length offset : List Int}
    (h : parseInstruction B address length offset = .ok B') (hB : Filled (ofBinary B)) : Filled (ofBinary B') := by
  obtain ⟨off, addr, len, hfit, h⟩ := parseInstruction_ok h
  obtain ⟨hr, -, -⟩ := claim_spec h
  have hcount : B'.count = B.count + 1 := by
    rw [hr]
    rfl
  have hnew := (newInstr_Is B off addr len B.count).1
  rw [if_pos rfl, ← hr.Is] at hnew
  have hold : ∀ k < B.count, B'.Is k = B.Is k := by
    intro k hk
    rw [hr.Is]
    show (B.setInstr B.count _).Is k = B.Is k
    rw [Binary.setInstr]
    exact if_neg (by omega)
  have hIs : ofBinary B' = (ofBinary B).alloc (B'.Is B.count) := by
    unfold ofBinary alloc
    rw [hcount, List.range_succ_eq_map, List.map_cons, List.map_map]
    congr 2
    refine List.map_congr_left fun i hi => ?_
    have hi := List.mem_range.mp hi
    show B'.Is (B.count + 1 - 1 - (i + 1)) = _
    rw [show B.count + 1 - 1 - (i + 1) = B.count - 1 - i by omega]
    exact hold _ (by omega)
  rw [hIs]
  refine hB.alloc fun J hJ => ?_
  rw [hnew]
  have hpos : 0 < B.count := by
    by_contra h0
    rw [front, ofBinary, Nat.eq_zero_of_not_pos h0] at hJ
    cases hJ
  have hfront : J = B.Is (B.count - 1) := by
    rw [front, List.head?_eq_getElem?, ofBinary_get hpos] at hJ
    exact (Option.some.inj hJ).symm
  have := (hfit.below hpos).1
  have := hfit.length.1
  rw [hfront]
  omega

theorem filled_of_wellFormed {B : Binary} (hw : WellFormed B) : Filled (ofBinary B) := by
  refine filled_of_ascending (List.pairwise_map.mpr (List.pairwise_lt_range.imp_of_mem ?_))
  intro i j hi hj hij
  have hi := List.mem_range.mp hi
  have hj := List.mem_range.mp hj
  have := hw.offsets (B.count - 1 - j) (B.count - 1 - i) (by omega) (by omega)
  have := hw.size (B.count - 1 - i) (by omega)
  omega

/-- The search that refactoring uses is this one. -/
theorem lower_bound_ofBinary {B : Binary} (hw : WellFormed B) (x : Nat) :
    (ofBinary B).lower_bound x = .ok ((E9Patch.lower_bound B x).map (B.count - 1 - ·)) := by
  rcases lower_bound_spec hw x with ⟨k, hk, hfirst⟩ | ⟨hnone, hall⟩
  · rw [hk, Option.map_some, lower_bound_some_iff (filled_of_wellFormed hw)]
    have hlt := hfirst.known
    refine ⟨B.Is k, ?_, by exact_mod_cast hfirst.behind, fun J hJ hx => ?_⟩
    · rw [ofBinary_get (by omega), show B.count - 1 - (B.count - 1 - k) = k by omega]
    · obtain ⟨j, hj, rfl⟩ := mem_ofBinary.mp hJ
      exact hfirst.first j hj (by exact_mod_cast hx)
  · rw [hnone, Option.map_none, lower_bound_none_iff (filled_of_wellFormed hw)]
    intro I hI
    obtain ⟨j, hj, rfl⟩ := mem_ofBinary.mp hI
    exact hall j hj

/-- The loop that looks for the instruction of a patch message is the search by halving. -/
theorem findLoop_eq {B : Binary} {offset : Int} {fuel : Nat} {lo hi : Int} (hlo : 0 ≤ lo) (hhi : hi < B.count) :
    findLoop B offset fuel lo hi =
      (BinarySearch.loop ((ofBinary B).sideAt offset) fuel lo hi).index.map (B.count - 1 - ·) := by
  induction fuel generalizing lo hi with
  | zero => rfl
  | succ fuel ih =>
      rw [findLoop, BinarySearch.loop]
      by_cases hle : lo ≤ hi
      · rw [if_neg (by omega), if_pos hle]
        generalize hm : (lo + hi) / 2 = m
        have hk : (B.count - 1 - m).toNat = B.count - 1 - m.toNat := by omega
        have hside : (ofBinary B).sideAt offset m.toNat = BinarySearch.side offset
            (B.Is (B.count - 1 - m.toNat)).offset (B.Is (B.count - 1 - m.toNat)).offset := by
          rw [sideAt, ofBinary_get (by omega)]
          rfl
        dsimp only
        rw [hk, hside, BinarySearch.side]
        by_cases hgt : offset > (B.Is (B.count - 1 - m.toNat)).offset
        · rw [if_pos hgt, if_pos hgt]
          exact ih (by omega) hhi
        · rw [if_neg hgt, if_neg hgt]
          by_cases hlt : offset < (B.Is (B.count - 1 - m.toNat)).offset
          · rw [if_pos hlt, if_pos hlt]
            exact ih hlo (by omega)
          · rw [if_neg hlt, if_neg hlt]
            rfl
      · rw [if_pos (by omega), if_neg hle]
        rfl

/-- A patch message finds its instruction if there is one. -/
theorem findInstr_some_iff {B : Binary} (hw : WellFormed B) {offset : Int} {k : Nat} :
    findInstr B offset = some k ↔ k < B.count ∧ ((B.Is k).offset : Int) = offset := by
  have hf := filled_of_wellFormed hw
  have hdiv : BinarySearch.Divides (sideOf offset) (ofBinary B).Is :=
    BinarySearch.divides_side (hf.ascending.imp fun hlt => by omega) (fun I _ => Int.le_refl _) offset
  rw [findInstr, findLoop_eq (Int.le_refl 0) (by omega)]
  cases hs : BinarySearch.loop ((ofBinary B).sideAt offset) (B.count + 1) 0 (B.count - 1) with
  | found i =>
      obtain ⟨heq, -, hi⟩ := BinarySearch.loop_found hs (Int.le_refl 0)
      rw [sideAt, ofBinary_get (by omega)] at heq
      obtain ⟨hle, hge⟩ := BinarySearch.side_eq_eq.mp heq
      rw [BinarySearch.Result.index, Option.map_some, Option.some.injEq]
      constructor
      · rintro rfl
        exact ⟨by omega, by omega⟩
      · rintro ⟨hk, hoff⟩
        -- two instructions have different offsets
        rcases Nat.lt_trichotomy k (B.count - 1 - i) with hlt | heq | hlt
        · have := hw.offsets k (B.count - 1 - i) hlt (by omega)
          have := hw.size (B.count - 1 - i) (by omega)
          omega
        · exact heq.symm
        · have := hw.offsets (B.count - 1 - i) k hlt hk
          have := hw.size k hk
          omega
  | missing k' =>
      refine ⟨fun h => (nomatch h), fun ⟨hk, hoff⟩ => ?_⟩
      have hsize : (ofBinary B).Is.length = B.count := ofBinary_size B
      obtain ⟨-, hbelow, habove⟩ := BinarySearch.loop_missing hs (by omega) (Int.le_refl 0) (by omega)
        (show (B.count - 1 : Int) < (ofBinary B).Is.length by omega) hdiv.monotone (fun i hi => by omega)
        (fun i hi hgt => by omega)
      have hat : (ofBinary B).sideAt offset (B.count - 1 - k) = .eq := by
        rw [sideAt, ofBinary_get (by omega), show B.count - 1 - (B.count - 1 - k) = k by omega]
        exact BinarySearch.side_eq_eq.mpr (by omega)
      rcases Nat.lt_or_ge (B.count - 1 - k) k' with hlt | hge
      · have := hbelow _ hlt
        exact absurd (hat.symm.trans this) (by decide)
      · have := habove (B.count - 1 - k) (by omega) hge
        exact absurd (hat.symm.trans this) (by decide)

end InstrSet

end E9Patch
