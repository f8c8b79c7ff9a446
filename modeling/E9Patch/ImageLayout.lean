import E9Patch.MappingCoverage

/-!
The layout of the image. The bounds that are mapped of a mapping cover its trampolines and keep off the pages of
others, flattening writes each byte to the place that is mapped there, and the levels follow one another in the file.
-/

namespace E9Patch
open Bytes Overlay Intervals Fallible PtrTree

variable {τ ι : Type}

/-! ### What is mapped of a mapping -/

theorem mem_pushBounds {l u : Int} {granularity : Nat} {bounds : List Bounds} {b : Bounds} :
    b ∈ pushBounds l u granularity bounds ↔ b ∈ bounds ∨
      l ≠ INTPTR_MAX ∧ u ≠ INTPTR_MIN ∧ b = ⟨l - l % granularity, roundUp granularity u⟩ := by
  have hround : (if u % granularity ≠ 0 then u + granularity - u % granularity else u) = roundUp granularity u := by
    unfold roundUp
    rw [Int.add_emod_right]
  unfold pushBounds
  dsimp only
  rw [hround]
  split_ifs with h
  · grind
  · rw [List.mem_append, List.mem_singleton]
    grind

/-- An offset that is within bounds stays within them. -/
theorem pushBounds_holds {l u o : Int} {granularity : Nat} (hpos : 0 < granularity) {bounds : List Bounds}
    (ho : 0 ≤ o ∧ o < INTPTR_MAX) (h : (∃ e ∈ bounds, e.lb ≤ o ∧ o < e.ub) ∨ l ≤ o ∧ o < u) :
    ∃ e ∈ pushBounds l u granularity bounds, e.lb ≤ o ∧ o < e.ub := by
  rcases h with ⟨e, he, h⟩ | ⟨h1, h2⟩
  · exact ⟨e, mem_pushBounds.mpr (Or.inl he), h⟩
  · have hmod := Int.emod_nonneg l (show (granularity : Int) ≠ 0 by omega)
    have hup := (roundUp_spec hpos u).1
    refine ⟨_, mem_pushBounds.mpr (Or.inr ⟨by omega, ?_, rfl⟩), ?_, ?_⟩
    · unfold INTPTR_MIN
      omega
    · show l - l % granularity ≤ o
      omega
    · show o < roundUp granularity u
      omega

theorem virtualLoop_holds {t : Tree τ ι} {code : Nat → Option (List UInt8)} {BASE END o : Int} {granularity : Nat}
    (hpos : 0 < granularity) (ho : 0 ≤ o ∧ o < INTPTR_MAX) (ns : List Nat) {b : Int × Int} {bounds : List Bounds}
    (h : (∃ e ∈ bounds, e.lb ≤ o ∧ o < e.ub) ∨ b.1 ≤ o ∧ o < b.2) :
    ∃ e ∈ virtualLoop t code BASE END granularity ns b bounds, e.lb ≤ o ∧ o < e.ub := by
  induction ns generalizing b bounds with
  | nil => exact pushBounds_holds hpos ho h
  | cons n ns ih =>
      rw [virtualLoop]
      dsimp only
      by_cases hend : (t.heap.alloc n).lb ≥ END
      · rw [if_pos hend]
        exact pushBounds_holds hpos ho h
      · rw [if_neg hend]
        by_cases hnone : (code n).isNone = true
        · rw [if_pos hnone]
          exact ih (Or.inl (pushBounds_holds hpos ho h))
        · rw [if_neg hnone]
          apply ih
          rcases h with h | ⟨h1, h2⟩
          · exact Or.inl h
          · exact Or.inr ⟨Int.le_trans (Int.min_le_left _ _) h1, Int.lt_of_lt_of_le h2 (Int.le_max_left _ _)⟩

/-- What an allocation with bytes has of a mapping is mapped. -/
theorem virtualLoop_covers {t : Tree τ ι} {code : Nat → Option (List UInt8)} {BASE END : Int} {granularity : Nat}
    (hpos : 0 < granularity) (hsize : END - BASE ≤ INTPTR_MAX) {ns : List Nat}
    (hs : Sorted t.heap.lo t.heap.hi ns) {n : Nat} (hn : n ∈ ns) (hcode : (code n).isSome) {x : Int}
    (hlb : (t.heap.alloc n).lb ≤ x) (hub : x < (t.heap.alloc n).ub) (hBASE : BASE ≤ x) (hEND : x < END)
    (b : Int × Int) (bounds : List Bounds) :
    ∃ e ∈ virtualLoop t code BASE END granularity ns b bounds, e.lb ≤ x - BASE ∧ x - BASE < e.ub := by
  induction ns generalizing b bounds with
  | nil => cases hn
  | cons k ns ih =>
      obtain ⟨-, -, hs'⟩ := sorted_cons.mp hs
      rw [virtualLoop]
      dsimp only
      rcases List.mem_cons.mp hn with rfl | hn
      · rw [if_neg (by omega), if_neg (by rw [Option.isNone_iff_eq_none]; exact Option.isSome_iff_ne_none.mp hcode)]
        apply virtualLoop_holds hpos (by omega)
        refine Or.inr ⟨Int.le_trans (Int.min_le_right _ _) ?_, Int.lt_of_lt_of_le ?_ (Int.le_max_right _ _)⟩
        · split_ifs <;> omega
        · split_ifs <;> omega
      · rw [if_neg (Int.not_le.mpr (lb_below hs hn (by omega)))]
        split_ifs <;> exact ih hs' hn _ _

/-- Bounds of a part of a mapping, in whole units. -/
structure Part (granularity SIZE : Nat) (e : Bounds) : Prop where
  lower : 0 ≤ e.lb
  order : e.lb ≤ e.ub
  upper : e.ub ≤ SIZE
  lb_dvd : (granularity : Int) ∣ e.lb
  ub_dvd : (granularity : Int) ∣ e.ub

/-- The bounds so far: none, or in order and within the mapping. -/
def Partial (SIZE : Nat) (b : Int × Int) : Prop :=
  b = (INTPTR_MAX, INTPTR_MIN) ∨ 0 ≤ b.1 ∧ b.1 ≤ b.2 ∧ b.2 ≤ SIZE

theorem pushBounds_part {granularity SIZE : Nat} (hpos : 0 < granularity) (hdvd : granularity ∣ SIZE) {b : Int × Int}
    (hb : Partial SIZE b) {bounds : List Bounds} (h : ∀ e ∈ bounds, Part granularity SIZE e) :
    ∀ e ∈ pushBounds b.1 b.2 granularity bounds, Part granularity SIZE e := by
  intro e he
  rcases mem_pushBounds.mp he with he | ⟨h1, -, rfl⟩
  · exact h e he
  · rcases hb with rfl | ⟨hb1, hb2, hb3⟩
    · exact absurd rfl h1
    · obtain ⟨hup, hupdvd, hupmin⟩ := roundUp_spec hpos b.2
      have hmod := Int.emod_nonneg b.1 (show (granularity : Int) ≠ 0 by omega)
      have hquot := Int.mul_nonneg (Int.natCast_nonneg granularity) (Int.ediv_nonneg hb1 (Int.natCast_nonneg granularity))
      refine ⟨?_, ?_, hupmin SIZE (by exact_mod_cast hdvd) hb3, Int.dvd_self_sub_of_emod_eq rfl, hupdvd⟩
      · show 0 ≤ b.1 - b.1 % granularity
        rw [Int.emod_def]
        omega
      · show b.1 - b.1 % granularity ≤ roundUp granularity b.2
        omega

/-- Bounds that take in what an allocation has of a mapping. -/
theorem Partial.extend {t : Tree τ ι} {BASE : Int} {SIZE n : Nat} {b : Int × Int} (hb : Partial SIZE b)
    (horder : (t.heap.alloc n).lb ≤ (t.heap.alloc n).ub) (hbase : BASE ≤ (t.heap.alloc n).ub)
    (hend : (t.heap.alloc n).lb < BASE + SIZE) (hmax : (SIZE : Int) ≤ INTPTR_MAX) :
    Partial SIZE (min b.1 (clipLower BASE (t.heap.alloc n)), max b.2 (clipUpper BASE (BASE + SIZE) (t.heap.alloc n))) := by
  have h1 : 0 ≤ clipLower BASE (t.heap.alloc n) ∧
      clipLower BASE (t.heap.alloc n) ≤ clipUpper BASE (BASE + SIZE) (t.heap.alloc n) ∧
      clipUpper BASE (BASE + SIZE) (t.heap.alloc n) ≤ SIZE ∧ clipLower BASE (t.heap.alloc n) ≤ SIZE := by
    unfold clipLower clipUpper
    split_ifs <;> omega
  refine Or.inr ?_
  rcases hb with rfl | hb
  · have hcap : (SIZE : Int) ≤ 2 ^ 63 - 1 := hmax
    simp only [INTPTR_MAX, INTPTR_MIN]
    omega
  · dsimp only
    omega

theorem virtualLoop_part {t : Tree τ ι} {code : Nat → Option (List UInt8)} {BASE : Int} {SIZE granularity : Nat}
    (hpos : 0 < granularity) (hdvd : granularity ∣ SIZE) (hmax : (SIZE : Int) ≤ INTPTR_MAX) {ns : List Nat}
    (hs : Sorted t.heap.lo t.heap.hi ns) (hbase : ∀ n ∈ ns, BASE ≤ (t.heap.alloc n).ub) {b : Int × Int}
    (hb : Partial SIZE b) {bounds : List Bounds} (h : ∀ e ∈ bounds, Part granularity SIZE e) :
    ∀ e ∈ virtualLoop t code BASE (BASE + SIZE) granularity ns b bounds, Part granularity SIZE e := by
  induction ns generalizing b bounds with
  | nil => exact pushBounds_part hpos hdvd hb h
  | cons n ns ih =>
      obtain ⟨horder, -, hs'⟩ := sorted_cons.mp hs
      have hbase' : ∀ n ∈ ns, BASE ≤ (t.heap.alloc n).ub := fun m hm => hbase m (List.mem_cons_of_mem _ hm)
      rw [virtualLoop]
      dsimp only
      split_ifs with hend hnone
      · exact pushBounds_part hpos hdvd hb h
      · exact ih hs' hbase' (Or.inl rfl) (pushBounds_part hpos hdvd hb h)
      all_goals
        refine ih hs' hbase' ?_ h
        have hext := hb.extend horder (hbase n List.mem_cons_self) (Int.not_le.mp hend) hmax
        simpa only [clipLower, clipUpper, *, if_true, if_false] using hext

/-- Pages that are reserved lie outside what is mapped. -/
def Avoids (BASE lo hi : Int) (e : Bounds) : Prop := BASE + e.ub ≤ lo ∨ hi ≤ BASE + e.lb

/-- Rounding down does not pass the end of a reservation. -/
theorem pushBounds_after {BASE lo hi : Int} {granularity : Nat} (hpos : 0 < granularity)
    (hhi : (granularity : Int) ∣ hi - BASE) {b : Int × Int} (hb : hi - BASE ≤ b.1 ∨ b.1 = INTPTR_MAX)
    {bounds : List Bounds} (h : ∀ e ∈ bounds, Avoids BASE lo hi e) :
    ∀ e ∈ pushBounds b.1 b.2 granularity bounds, Avoids BASE lo hi e := by
  intro e he
  rcases mem_pushBounds.mp he with he | ⟨h1, -, rfl⟩
  · exact h e he
  · rcases hb with hb | hb
    · have hmod := Int.emod_lt_of_pos b.1 (show (0 : Int) < granularity by omega)
      have hfloor : (granularity : Int) ∣ b.1 - b.1 % granularity := Int.dvd_self_sub_of_emod_eq rfl
      refine Or.inr ?_
      show hi ≤ BASE + (b.1 - b.1 % granularity)
      by_contra hlt
      have hgap := Int.le_of_dvd (show 0 < hi - BASE - (b.1 - b.1 % granularity) by omega) (Int.dvd_sub hhi hfloor)
      omega
    · exact absurd hb h1

theorem virtualLoop_after {t : Tree τ ι} {code : Nat → Option (List UInt8)} {BASE END lo hi : Int} {granularity : Nat}
    (hpos : 0 < granularity) (hhi : (granularity : Int) ∣ hi - BASE) {ns : List Nat}
    (hafter : ∀ n ∈ ns, hi ≤ (t.heap.alloc n).lb) {b : Int × Int} (hb : hi - BASE ≤ b.1 ∨ b.1 = INTPTR_MAX)
    {bounds : List Bounds} (h : ∀ e ∈ bounds, Avoids BASE lo hi e) :
    ∀ e ∈ virtualLoop t code BASE END granularity ns b bounds, Avoids BASE lo hi e := by
  induction ns generalizing b bounds with
  | nil => exact pushBounds_after hpos hhi hb h
  | cons n ns ih =>
      have hn := hafter n List.mem_cons_self
      have hafter' : ∀ n ∈ ns, hi ≤ (t.heap.alloc n).lb := fun m hm => hafter m (List.mem_cons_of_mem _ hm)
      rw [virtualLoop]
      dsimp only
      by_cases hend : (t.heap.alloc n).lb ≥ END
      · rw [if_pos hend]
        exact pushBounds_after hpos hhi hb h
      rw [if_neg hend]
      by_cases hnone : (code n).isNone = true
      · rw [if_pos hnone]
        exact ih hafter' (Or.inr rfl) (pushBounds_after hpos hhi hb h)
      · rw [if_neg hnone]
        refine ih hafter' ?_ h
        dsimp only
        rcases hb with hb | hb <;> split_ifs <;> omega

/-- Rounding up does not pass the start of a reservation. -/
theorem pushBounds_before {BASE lo hi : Int} {granularity : Nat} (hpos : 0 < granularity)
    (hlo : (granularity : Int) ∣ lo - BASE) {b : Int × Int} (hb : b.2 ≤ lo - BASE ∨ b.2 = INTPTR_MIN)
    {bounds : List Bounds} (h : ∀ e ∈ bounds, Avoids BASE lo hi e) :
    ∀ e ∈ pushBounds b.1 b.2 granularity bounds, Avoids BASE lo hi e := by
  intro e he
  rcases mem_pushBounds.mp he with he | ⟨-, h2, rfl⟩
  · exact h e he
  · rcases hb with hb | hb
    · have hup := (roundUp_spec hpos b.2).2.2 _ hlo hb
      refine Or.inl ?_
      show BASE + roundUp granularity b.2 ≤ lo
      omega
    · exact absurd hb h2

/-- Reserved memory splits the mapping: no part has a byte of it. -/
theorem virtualLoop_avoids {t : Tree τ ι} {code : Nat → Option (List UInt8)} {BASE END : Int} {granularity r : Nat}
    (hpos : 0 < granularity) (hlo : (granularity : Int) ∣ (t.heap.alloc r).lb - BASE)
    (hhi : (granularity : Int) ∣ (t.heap.alloc r).ub - BASE) (hcode : code r = none) {ns : List Nat}
    (hs : Sorted t.heap.lo t.heap.hi ns) (hbase : ∀ n ∈ ns, BASE ≤ (t.heap.alloc n).ub) (hr : r ∈ ns) {b : Int × Int}
    (hb : b.2 ≤ (t.heap.alloc r).lb - BASE ∨ b.2 = INTPTR_MIN) {bounds : List Bounds}
    (h : ∀ e ∈ bounds, Avoids BASE (t.heap.alloc r).lb (t.heap.alloc r).ub e) :
    ∀ e ∈ virtualLoop t code BASE END granularity ns b bounds,
      Avoids BASE (t.heap.alloc r).lb (t.heap.alloc r).ub e := by
  induction ns generalizing b bounds with
  | nil => cases hr
  | cons n ns ih =>
      obtain ⟨-, hnext, hs'⟩ := sorted_cons.mp hs
      have hbase' : ∀ n ∈ ns, BASE ≤ (t.heap.alloc n).ub := fun m hm => hbase m (List.mem_cons_of_mem _ hm)
      have hpush := pushBounds_before hpos hlo hb h
      rw [virtualLoop]
      dsimp only
      by_cases hend : (t.heap.alloc n).lb ≥ END
      · rw [if_pos hend]
        exact hpush
      rw [if_neg hend]
      rcases List.mem_cons.mp hr with rfl | hr
      · rw [if_pos (by rw [hcode]; rfl)]
        exact virtualLoop_after hpos hhi hnext (Or.inr rfl) hpush
      · have hle : (t.heap.alloc n).ub ≤ (t.heap.alloc r).lb := hnext r hr
        by_cases hnone : (code n).isNone = true
        · rw [if_pos hnone]
          exact ih hs' hbase' hr (Or.inr rfl) hpush
        · rw [if_neg hnone]
          refine ih hs' hbase' hr (Or.inl ?_) h
          have hn := hbase n List.mem_cons_self
          dsimp only
          rcases hb with hb | hb
          · split_ifs <;> omega
          · rw [hb]
            unfold INTPTR_MIN
            split_ifs <;> omega

/-! ### What is flattened -/

/-- Every trampoline has its bytes, and nothing else has any. -/
structure HasCode (t : Tree τ ι) (live : List Nat) (code : Nat → Option (List UInt8)) : Prop where
  isSome : ∀ n ∈ live, (code n).isSome = (t.heap.alloc n).T.isSome
  length : ∀ n ∈ live, ∀ bytes, code n = some bytes →
    (bytes.length : Int) = (t.heap.alloc n).ub - (t.heap.alloc n).lb

/-- The byte of an allocation at an address. -/
def CodeAt (t : Tree τ ι) (code : Nat → Option (List UInt8)) (n : Nat) (x : Int) (b : UInt8) : Prop :=
  (t.heap.alloc n).lb ≤ x ∧ x < (t.heap.alloc n).ub ∧
    ∃ bytes, code n = some bytes ∧ bytes[(x - (t.heap.alloc n).lb).toNat]? = some b

theorem write_part_get {p off len j : Nat} {bytes : List UInt8} {b : UInt8}
    (h : (⟨p, (bytes.drop off).take len⟩ : Write UInt8).get j = some b) :
    p ≤ j ∧ j < p + len ∧ off + (j - p) < bytes.length ∧ bytes[off + (j - p)]? = some b := by
  unfold Write.get at h
  dsimp only at h
  split at h
  · rename_i hle
    rw [List.getElem?_take] at h
    split at h
    · rw [List.getElem?_drop] at h
      exact ⟨hle, by omega, (List.getElem?_eq_some_iff.mp h).1, h⟩
    · cases h
  · cases h

/-- A copy has bytes of one allocation, each at its place in the buffer. -/
theorem flattenLoop_get {t : Tree τ ι} {code : Nat → Option (List UInt8)} {live : List Nat} (hcode : HasCode t live code)
    {buf : Nat} {BASE END : Int} {ns : List Nat} (hns : ns ⊆ live) {w : Write UInt8}
    (hw : w ∈ flattenLoop t code buf BASE END ns) {j : Nat} {b : UInt8} (hget : w.get j = some b) :
    buf ≤ j ∧ BASE + (j - buf : Int) < END ∧ ∃ n ∈ ns, CodeAt t code n (BASE + (j - buf : Int)) b := by
  induction ns with
  | nil => cases hw
  | cons n ns ih =>
      have hns' : ns ⊆ live := fun m hm => hns (List.mem_cons_of_mem _ hm)
      rw [flattenLoop] at hw
      dsimp only at hw
      by_cases hend : (t.heap.alloc n).lb ≥ END
      · rw [if_pos hend] at hw
        cases hw
      rw [if_neg hend] at hw
      cases hbytes : code n with
      | none =>
          rw [hbytes] at hw
          obtain ⟨h1, h2, m, hm, h3⟩ := ih hns' hw
          exact ⟨h1, h2, m, List.mem_cons_of_mem _ hm, h3⟩
      | some bytes =>
          rw [hbytes] at hw
          rcases List.mem_cons.mp hw with rfl | hw
          · have hlen := hcode.length n (hns List.mem_cons_self) bytes hbytes
            obtain ⟨hle, hlt, hsome, hget⟩ := write_part_get hget
            refine ⟨?_, ?_, n, List.mem_cons_self, ?_, ?_, bytes, hbytes, ?_⟩
            · split_ifs at hle <;> omega
            · split_ifs at hle hlt <;> omega
            · split_ifs at hle hlt <;> omega
            · split_ifs at hle hlt hsome <;> omega
            · rw [← hget]
              congr 1
              split_ifs at hle hlt hsome ⊢ <;> omega
          · obtain ⟨h1, h2, m, hm, h3⟩ := ih hns' hw
            exact ⟨h1, h2, m, List.mem_cons_of_mem _ hm, h3⟩

/-- Every byte that an allocation has in a mapping is copied. -/
theorem flattenLoop_covers {t : Tree τ ι} {code : Nat → Option (List UInt8)} {buf : Nat} {BASE END x : Int}
    {ns : List Nat} (hs : Sorted t.heap.lo t.heap.hi ns) {n : Nat} (hn : n ∈ ns) {b : UInt8}
    (hx : CodeAt t code n x b) (hBASE : BASE ≤ x) (hEND : x < END) :
    ∃ w ∈ flattenLoop t code buf BASE END ns, w.Covers (buf + (x - BASE).toNat) := by
  obtain ⟨hlb, hub, bytes, hbytes, hget⟩ := hx
  induction ns with
  | nil => cases hn
  | cons k ns ih =>
      obtain ⟨-, -, hs'⟩ := sorted_cons.mp hs
      rw [flattenLoop]
      dsimp only
      rcases List.mem_cons.mp hn with rfl | hn
      · rw [if_neg (by omega), hbytes]
        have hlt := (List.getElem?_eq_some_iff.mp hget).1
        refine ⟨_, List.mem_cons_self, ?_, ?_⟩
        · dsimp only
          split_ifs <;> omega
        · dsimp only
          rw [List.length_take, List.length_drop]
          split_ifs <;> omega
      · rw [if_neg (Int.not_le.mpr (lb_below hs hn (by omega)))]
        obtain ⟨w, hw, hc⟩ := ih hs' hn
        cases code k with
        | none => exact ⟨w, hw, hc⟩
        | some bytes => exact ⟨w, List.mem_cons_of_mem _ hw, hc⟩

/-- A mapping reads the allocations from one that reaches into it, behind trampolines that end before it. -/
structure Starts (t : Tree τ ι) (live : List Nat) (m : Mapping) : Prop where
  split : ∃ as bs, live = as ++ m.i :: bs ∧ ∀ n ∈ as, (t.heap.alloc n).T.isSome → (t.heap.alloc n).ub ≤ m.base
  lower : (t.heap.alloc m.i).lb < m.base → m.base ≤ (t.heap.alloc m.i).ub

/-- What a mapping reads. -/
theorem Starts.from {t : Tree τ ι} {s : Shape Nat} (hl : Linked t s) {m : Mapping} (hm : Starts t s.inorder m) :
    Sorted t.heap.lo t.heap.hi (t.from m.i) ∧ t.from m.i ⊆ s.inorder ∧
      (∀ n ∈ t.from m.i, m.base ≤ (t.heap.alloc n).ub) ∧
      ∀ n ∈ s.inorder, (t.heap.alloc n).T.isSome → m.base < (t.heap.alloc n).ub → n ∈ t.from m.i := by
  obtain ⟨as, bs, hsplit, hbefore⟩ := hm.split
  rw [from_eq hl hsplit]
  have hall := hl.ordered.1
  rw [hsplit] at hall ⊢
  have hsorted := (sorted_append.mp hall).2.1
  obtain ⟨horder, hnext, hrest⟩ := sorted_cons.mp hsorted
  have horder : (t.heap.alloc m.i).lb ≤ (t.heap.alloc m.i).ub := horder
  have hlower := hm.lower
  refine ⟨hsorted, List.subset_append_right _ _, fun n hn => ?_, fun n hn hT hub => ?_⟩
  · rcases List.mem_cons.mp hn with rfl | hn
    · omega
    · have h1 : (t.heap.alloc m.i).ub ≤ (t.heap.alloc n).lb := hnext n hn
      have h2 : (t.heap.alloc n).lb ≤ (t.heap.alloc n).ub := hrest.2 n hn
      omega
  · rcases List.mem_append.mp hn with hn | hn
    · have := hbefore n hn hT
      omega
    · exact hn

theorem CodeAt.unique {t : Tree τ ι} {code : Nat → Option (List UInt8)} {n : Nat} {x : Int} {b c : UInt8}
    (hb : CodeAt t code n x b) (hc : CodeAt t code n x c) : b = c := by
  obtain ⟨-, -, bytes, hbytes, hb⟩ := hb
  obtain ⟨-, -, bytes', hbytes', hc⟩ := hc
  obtain rfl := Option.some.inj (hbytes.symm.trans hbytes')
  exact Option.some.inj (hb.symm.trans hc)

theorem HasCode.trampoline {t : Tree τ ι} {live : List Nat} {code : Nat → Option (List UInt8)}
    (h : HasCode t live code) {n : Nat} (hn : n ∈ live) {x : Int} {b : UInt8} (hx : CodeAt t code n x b) :
    (t.heap.alloc n).T.isSome := by
  obtain ⟨-, -, bytes, hbytes, -⟩ := hx
  rw [← h.isSome n hn, hbytes]
  rfl

/-- In a buffer that is shared by the mappings of a chain, each trampoline has its bytes. -/
theorem flattenMapping_shows {t : Tree τ ι} {s : Shape Nat} (hl : Linked t s) {code : Nat → Option (List UInt8)}
    (hcode : HasCode t s.inorder code) {chain : List SavedMapping}
    (hstarts : ∀ m ∈ chain, Starts t s.inorder m.toMapping)
    (hsep : Separate t s.inorder (chain.map SavedMapping.toMapping)) {m : SavedMapping} (hm : m ∈ chain) {n : Nat}
    (hn : n ∈ s.inorder) {x : Int} {b : UInt8} (hx : CodeAt t code n x b) (hbase : m.base ≤ x)
    (hend : x < m.base + m.size) (data : Nat → UInt8) (buf : Nat) (fill : UInt8) :
    flattenMapping t code data buf chain fill (buf + (x - m.base).toNat) = b := by
  have hT := hcode.trampoline hn hx
  unfold flattenMapping
  rw [overlay_cons]
  apply overlay_of_agree
  · intro w hw c hget
    obtain ⟨m', hm', hw⟩ := List.mem_flatMap.mp hw
    obtain ⟨hsorted', hsub', -, -⟩ := (hstarts m' hm').from hl
    obtain ⟨-, hend', n', hn', hc⟩ := flattenLoop_get hcode hsub' hw hget
    rw [show m'.base + (((buf + (x - m.base).toNat : Nat) : Int) - buf) = m'.base + (x - m.base) by omega] at hend' hc
    have hT' := hcode.trampoline (hsub' hn') hc
    by_cases heq : m'.toMapping = m.toMapping
    · have hbase' : m'.base = m.base := congrArg Mapping.base heq
      rw [hbase', show m.base + (x - m.base) = x by omega] at hc
      obtain rfl : n' = n := hl.ordered.1.unique (hsub' hn') hn ⟨hc.1, hc.2.1⟩ ⟨hx.1, hx.2.1⟩
      exact hc.unique hx
    · -- two mappings of a chain do not occupy the same offset
      let R : Mapping → Mapping → Prop := fun m m' =>
        ∀ o, ¬(OffsetOccupied t s.inorder m o ∧ OffsetOccupied t s.inorder m' o)
      have : Std.Symm R := ⟨fun _ _ h o ho => h o ho.symm⟩
      have hR : R m'.toMapping m.toMapping :=
        List.Pairwise.forall (R := R) hsep (List.mem_map.mpr ⟨m', hm', rfl⟩) (List.mem_map.mpr ⟨m, hm, rfl⟩) heq
      refine absurd ⟨⟨by omega, by omega, n', hsub' hn', hT', ?_, ?_⟩, ⟨by omega, by omega, n, hn, hT, ?_, ?_⟩⟩
        (hR (x - m.base))
      · exact hc.1
      · exact hc.2.1
      · have := hx.1
        omega
      · have := hx.2.1
        omega
  · obtain ⟨hsorted, -, -, hfrom⟩ := (hstarts m hm).from hl
    have hmem := hfrom n hn hT (Int.lt_of_le_of_lt hbase hx.2.1)
    obtain ⟨w, hw, hc⟩ := flattenLoop_covers hsorted hmem hx hbase hend
    exact ⟨w, List.mem_flatMap.mpr ⟨m, hm, hw⟩, hc⟩

/-- Flattening writes to the buffer alone. -/
theorem flattenMapping_outside {t : Tree τ ι} {s : Shape Nat} (hl : Linked t s) {code : Nat → Option (List UInt8)}
    (hcode : HasCode t s.inorder code) {chain : List SavedMapping}
    (hstarts : ∀ m ∈ chain, Starts t s.inorder m.toMapping) (hsize : ∀ m ∈ chain, m.size = chainSize chain)
    (data : Nat → UInt8) (buf : Nat) (fill : UInt8) {j : Nat} (hj : j < buf ∨ buf + chainSize chain ≤ j) :
    flattenMapping t code data buf chain fill j = data j := by
  apply overlay_of_not_covers
  intro w hw hc
  rcases List.mem_cons.mp hw with rfl | hw
  · obtain ⟨h1, h2⟩ := hc
    rw [List.length_replicate] at h2
    dsimp only at h1 h2
    omega
  · obtain ⟨m, hm, hw⟩ := List.mem_flatMap.mp hw
    obtain ⟨b, hget⟩ := Write.get_isSome hc
    obtain ⟨h1, h2, -⟩ := flattenLoop_get hcode ((hstarts m hm).from hl).2.1 hw hget
    have := hsize m hm
    omega

/-- What the steps of the emission need of a chain. -/
structure Emittable (t : Tree τ ι) (live : List Nat) (chain : List SavedMapping) : Prop where
  starts : ∀ m ∈ chain, Starts t live m.toMapping
  size : ∀ m ∈ chain, m.size = chainSize chain
  pages : PAGE_SIZE ∣ chainSize chain
  separate : Separate t live (chain.map SavedMapping.toMapping)

/-- A chain that was flattened into the file, in pages of its own. -/
structure Emitted (t : Tree τ ι) (code : Nat → Option (List UInt8)) (start : Nat) (e : Emission)
    (p : Nat × List SavedMapping) : Prop where
  lower : start ≤ p.1
  upper : p.1 + chainSize p.2 ≤ e.size
  pages : PAGE_SIZE ∣ p.1
  data : ∃ data, ∀ j, p.1 ≤ j → j < p.1 + chainSize p.2 → e.data j = flattenMapping t code data p.1 p.2 0xcc j

theorem emitMapping_emitted {t : Tree τ ι} {s : Shape Nat} (hl : Linked t s) {code : Nat → Option (List UInt8)}
    (hcode : HasCode t s.inorder code) {chain : List SavedMapping} (hchain : Emittable t s.inorder chain) {start : Nat}
    {e : Emission} (hstart : start ≤ e.size) (hpages : PAGE_SIZE ∣ e.size)
    (h : ∀ p ∈ e.chains, Emitted t code start e p) :
    (∀ p ∈ (emitMapping t code e chain).chains, Emitted t code start (emitMapping t code e chain) p) ∧
      PAGE_SIZE ∣ (emitMapping t code e chain).size := by
  refine ⟨fun p hp => ?_, Nat.dvd_add hpages hchain.pages⟩
  rcases List.mem_append.mp hp with hp | hp
  · obtain ⟨h1, h2, h3, data, hdata⟩ := h p hp
    refine ⟨h1, Nat.le_trans h2 (Nat.le_add_right _ _), h3, data, fun j hj hj' => ?_⟩
    rw [← hdata j hj hj']
    exact flattenMapping_outside hl hcode hchain.starts hchain.size e.data e.size 0xcc (Or.inl (by omega))
  · rw [List.mem_singleton.mp hp]
    exact ⟨hstart, Nat.le_refl _, hpages, e.data, fun j _ _ => rfl⟩

theorem emitAllMappings_emitted {t : Tree τ ι} {s : Shape Nat} (hl : Linked t s) {code : Nat → Option (List UInt8)}
    (hcode : HasCode t s.inorder code) {chains : List (List SavedMapping)}
    (hchains : ∀ chain ∈ chains, Emittable t s.inorder chain) (data : Nat → UInt8) {size : Nat}
    (hsize : PAGE_SIZE ∣ size) :
    (∀ p ∈ (emitAllMappings t code data size chains).chains,
      Emitted t code size (emitAllMappings t code data size chains) p) ∧
    (emitAllMappings t code data size chains).chains.map Prod.snd = chains := by
  have hrun : ∀ (chains : List (List SavedMapping)) (e : Emission), (∀ chain ∈ chains, Emittable t s.inorder chain) →
      size ≤ e.size → PAGE_SIZE ∣ e.size → (∀ p ∈ e.chains, Emitted t code size e p) →
      (∀ p ∈ (chains.foldl (emitMapping t code) e).chains,
        Emitted t code size (chains.foldl (emitMapping t code) e) p) ∧
      (chains.foldl (emitMapping t code) e).chains.map Prod.snd = e.chains.map Prod.snd ++ chains := by
    intro chains
    induction chains with
    | nil =>
        intro e _ _ _ h
        exact ⟨h, (List.append_nil _).symm⟩
    | cons chain chains ih =>
        intro e hchains hstart hpages h
        have hchain := hchains chain List.mem_cons_self
        obtain ⟨h1, h2⟩ := emitMapping_emitted hl hcode hchain hstart hpages h
        obtain ⟨h3, h4⟩ := ih (emitMapping t code e chain) (fun c hc => hchains c (List.mem_cons_of_mem _ hc))
          (Nat.le_trans hstart (Nat.le_add_right _ _)) h2 h1
        refine ⟨h3, h4.trans ?_⟩
        show (e.chains ++ [(e.size, chain)]).map Prod.snd ++ chains = _
        rw [List.map_append, List.append_assoc]
        rfl
  exact hrun chains ⟨data, size, []⟩ hchains (Nat.le_refl _) hsize fun p hp => (nomatch hp)

end E9Patch
