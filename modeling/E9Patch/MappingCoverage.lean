import E9Patch.ImageModel
import E9Patch.MappingTheorems

/-!
Coverage of the mappings. Every byte of a trampoline lies in one mapping, at an offset that the mapping has as
occupied, and what shrinking takes off a chain of mappings is occupied in none of them.
-/

namespace E9Patch
open Bytes Overlay Intervals Fallible PtrTree

variable {τ ι : Type}

/-! ### Occupancy of the mappings -/

/-- Where an allocation starts in a mapping, counted from `BASE`. -/
def clipLower (BASE : Int) (a : Alloc τ ι) : Int := if a.lb < BASE then 0 else a.lb - BASE

/-- Where it ends. -/
def clipUpper (BASE END : Int) (a : Alloc τ ι) : Int := if a.ub > END then END - BASE else a.ub - BASE

/-- Bounds contain those that they were computed from. -/
theorem boundsLoop_mono (t : Tree τ ι) (BASE END : Int) (ns : List Nat) (b : Int × Int) :
    (boundsLoop t BASE END ns b).1 ≤ b.1 ∧ b.2 ≤ (boundsLoop t BASE END ns b).2 := by
  induction ns generalizing b with
  | nil => exact ⟨Int.le_refl _, Int.le_refl _⟩
  | cons n ns ih =>
      rw [boundsLoop]
      dsimp only
      split_ifs
      · exact ⟨Int.le_refl _, Int.le_refl _⟩
      · exact ih b
      all_goals
        obtain ⟨h1, h2⟩ := ih (min b.1 _, max b.2 _)
        exact ⟨Int.le_trans h1 (Int.min_le_left _ _), Int.le_trans (Int.le_max_left _ _) h2⟩

/-- In ascending order, what stands before an allocation that starts below `END` does so too. -/
theorem lb_below {t : Tree τ ι} {ns : List Nat} {n k : Nat} (hs : Sorted t.heap.lo t.heap.hi (k :: ns))
    (hn : n ∈ ns) {END : Int} (h : (t.heap.alloc n).lb < END) : (t.heap.alloc k).lb < END := by
  obtain ⟨h1, h2, -⟩ := sorted_cons.mp hs
  have h3 : (t.heap.alloc k).lb ≤ (t.heap.alloc k).ub := h1
  have h4 : (t.heap.alloc k).ub ≤ (t.heap.alloc n).lb := h2 n hn
  omega

/-- The bounds of a mapping contain every trampoline that reaches into it. -/
theorem boundsLoop_contains {t : Tree τ ι} (BASE END : Int) {ns : List Nat} (hs : Sorted t.heap.lo t.heap.hi ns)
    {n : Nat} (hn : n ∈ ns) (hT : (t.heap.alloc n).T.isSome) (hlb : (t.heap.alloc n).lb < END) (b : Int × Int) :
    (boundsLoop t BASE END ns b).1 ≤ clipLower BASE (t.heap.alloc n) ∧
      clipUpper BASE END (t.heap.alloc n) ≤ (boundsLoop t BASE END ns b).2 := by
  induction ns generalizing b with
  | nil => cases hn
  | cons k ns ih =>
      obtain ⟨-, -, hs'⟩ := sorted_cons.mp hs
      rw [boundsLoop]
      dsimp only
      rcases List.mem_cons.mp hn with rfl | hn
      · rw [if_neg (by omega), if_neg (by rw [Option.isNone_iff_eq_none]; exact Option.isSome_iff_ne_none.mp hT)]
        obtain ⟨h1, h2⟩ := boundsLoop_mono t BASE END ns
          (min b.1 (clipLower BASE (t.heap.alloc n)), max b.2 (clipUpper BASE END (t.heap.alloc n)))
        exact ⟨Int.le_trans h1 (Int.min_le_right _ _), Int.le_trans (Int.le_max_right _ _) h2⟩
      · have hk : ¬(t.heap.alloc k).lb ≥ END := Int.not_le.mpr (lb_below hs hn hlb)
        rw [if_neg hk]
        split_ifs <;> exact ih hs' hn _

/-! ### What `coverMappings` reaches -/

/-- The address is in a mapping that was saved, or in the one that is not saved yet. -/
def Building.Reaches (s : Building) (SIZE : Nat) (x : Int) : Prop :=
  ∃ m ∈ s.mappings ++ s.mapping.toList, m.base ≤ x ∧ x < m.base + SIZE

theorem saveMapping_reaches {t : Tree τ ι} {mapping : Option Mapping} {ms : List Mapping} {SIZE : Nat} {x : Int}
    (h : ∃ m ∈ ms ++ mapping.toList, m.base ≤ x ∧ x < m.base + SIZE) :
    ∃ m ∈ saveMapping t mapping ms, m.base ≤ x ∧ x < m.base + SIZE := by
  obtain ⟨m, hm, hx⟩ := h
  cases mapping with
  | none =>
      rw [Option.toList_none, List.append_nil] at hm
      exact ⟨m, hm, hx⟩
  | some m₀ =>
      rcases List.mem_append.mp hm with hm | hm
      · exact ⟨m, List.mem_append_left _ hm, hx⟩
      · obtain rfl : m = m₀ := by simpa using hm
        exact ⟨_, List.mem_append_right _ (List.mem_singleton.mpr rfl), hx⟩

theorem startMapping_reaches {t : Tree τ ι} {SIZE i : Nat} {s : Building} {base x : Int}
    (h : s.Reaches SIZE x ∨ base ≤ x ∧ x < base + SIZE) : (startMapping t SIZE i s base).Reaches SIZE x := by
  rcases h with h | h
  · obtain ⟨m, hm, hx⟩ := saveMapping_reaches (t := t) h
    exact ⟨m, List.mem_append_left _ hm, hx⟩
  · exact ⟨allocMapping i SIZE base, List.mem_append_right _ (List.mem_singleton.mpr rfl), h⟩

/-- The mappings that an allocation reaches into cover it from the current one on. -/
theorem coverSpan_reaches {t : Tree τ ι} {SIZE i : Nat} (hpos : 0 < SIZE) {fuel : Nat} {s : Building} {x : Int}
    (hfuel : (t.heap.alloc i).ub - s.base ≤ fuel)
    (h : s.Reaches SIZE x ∨ s.base + SIZE ≤ x ∧ x < (t.heap.alloc i).ub) :
    (coverSpan t SIZE i fuel s).Reaches SIZE x := by
  induction fuel generalizing s with
  | zero =>
      rcases h with h | ⟨h1, h2⟩
      · exact h
      · omega
  | succ fuel ih =>
      rw [coverSpan]
      by_cases hspan : s.base + SIZE < (t.heap.alloc i).ub
      · rw [if_pos hspan]
        apply ih
        · show (t.heap.alloc i).ub - (s.base + SIZE) ≤ fuel
          omega
        · rcases h with h | ⟨h1, h2⟩
          · exact Or.inl (startMapping_reaches (Or.inl h))
          · rcases Int.lt_or_le x (s.base + SIZE + SIZE) with hlt | hge
            · exact Or.inl (startMapping_reaches (Or.inr ⟨h1, hlt⟩))
            · exact Or.inr ⟨hge, h2⟩
      · rw [if_neg hspan]
        rcases h with h | ⟨h1, h2⟩
        · exact h
        · omega

/-- Behind some allocations: what they occupy is reached, and the current mapping is not above what comes next. -/
structure ReachesAll (t : Tree τ ι) (SIZE : Nat) (done rest : List Nat) (s : Building) : Prop where
  reached : ∀ n ∈ done, (t.heap.alloc n).T.isSome → INTPTR_MIN + SIZE ≤ (t.heap.alloc n).lb →
    ∀ x, (t.heap.alloc n).lb ≤ x → x < (t.heap.alloc n).ub → s.Reaches SIZE x
  start : s.mapping = none → s.base = INTPTR_MIN
  current : ∀ m, s.mapping = some m → m.base = s.base ∧ ∀ n ∈ rest, s.base ≤ (t.heap.alloc n).lb

theorem coverSpan_current {t : Tree τ ι} {SIZE i : Nat} {fuel : Nat} {s : Building} {m : Mapping}
    (hm : s.mapping = some m) (hbase : m.base = s.base) (hub : s.base ≤ (t.heap.alloc i).ub) :
    ∃ m', (coverSpan t SIZE i fuel s).mapping = some m' ∧ m'.base = (coverSpan t SIZE i fuel s).base ∧
      (coverSpan t SIZE i fuel s).base ≤ (t.heap.alloc i).ub := by
  induction fuel generalizing s m with
  | zero => exact ⟨m, hm, hbase, hub⟩
  | succ fuel ih =>
      rw [coverSpan]
      split_ifs with hspan
      · exact ih (m := allocMapping i SIZE (s.base + SIZE)) rfl rfl (Int.le_of_lt hspan)
      · exact ⟨m, hm, hbase, hub⟩

theorem coverSpan_none {t : Tree τ ι} {SIZE i : Nat} {fuel : Nat} {s : Building}
    (h : ¬s.base + SIZE < (t.heap.alloc i).ub) : coverSpan t SIZE i fuel s = s := by
  cases fuel with
  | zero => rfl
  | succ fuel => rw [coverSpan, if_neg h]

/-- Once there is a mapping, a round goes on from it. -/
theorem span_reachesAll {t : Tree τ ι} {SIZE i : Nat} (hpos : 0 < SIZE) {done rest : List Nat} {s : Building}
    (hs : Sorted t.heap.lo t.heap.hi (i :: rest)) {m : Mapping} (hm : s.mapping = some m) (hbase : m.base = s.base)
    (hle : s.base ≤ (t.heap.alloc i).lb)
    (hdone : ∀ n ∈ done, (t.heap.alloc n).T.isSome → INTPTR_MIN + SIZE ≤ (t.heap.alloc n).lb →
      ∀ x, (t.heap.alloc n).lb ≤ x → x < (t.heap.alloc n).ub → s.Reaches SIZE x) :
    ReachesAll t SIZE (done ++ [i]) rest (coverSpan t SIZE i ((t.heap.alloc i).ub - s.base).toNat s) := by
  obtain ⟨hi, hnext, -⟩ := sorted_cons.mp hs
  have hi : (t.heap.alloc i).lb ≤ (t.heap.alloc i).ub := hi
  obtain ⟨m', hm', hbase', hub'⟩ := coverSpan_current (t := t)
    hm hbase (Int.le_trans hle hi)
  have hfuel : (t.heap.alloc i).ub - s.base ≤ ((t.heap.alloc i).ub - s.base).toNat := Int.self_le_toNat _
  refine ⟨fun n hn hT hlow x h1 h2 => ?_, fun hnone => ?_, fun m'' hm'' => ?_⟩
  · apply coverSpan_reaches hpos hfuel
    rcases List.mem_append.mp hn with hn | hn
    · exact Or.inl (hdone n hn hT hlow x h1 h2)
    · rw [List.mem_singleton.mp hn] at h1 h2
      rcases Int.lt_or_le x (s.base + SIZE) with hlt | hge
      · exact Or.inl ⟨m, by rw [hm]; simp, by omega, by omega⟩
      · exact Or.inr ⟨hge, h2⟩
  · rw [hm'] at hnone
    cases hnone
  · obtain rfl : m' = m'' := Option.some.inj (hm'.symm.trans hm'')
    exact ⟨hbase', fun n hn => Int.le_trans hub' (hnext n hn)⟩

theorem coverStep_reaches {t : Tree τ ι} {SIZE i : Nat} (hpos : 0 < SIZE) {done rest : List Nat} {s : Building}
    (hs : Sorted t.heap.lo t.heap.hi (i :: rest)) (h : ReachesAll t SIZE done (i :: rest) s) :
    ReachesAll t SIZE (done ++ [i]) rest (coverStep t SIZE s i) := by
  unfold coverStep
  dsimp only
  by_cases hnone : (t.heap.alloc i).T.isNone = true
  · rw [if_pos hnone]
    refine ⟨fun n hn hT => ?_, h.start, fun m hm => ?_⟩
    · rcases List.mem_append.mp hn with hn | hn
      · exact h.reached n hn hT
      · rw [List.mem_singleton.mp hn, Option.isNone_iff_eq_none.mp hnone] at hT
        cases hT
    · obtain ⟨h1, h2⟩ := h.current m hm
      exact ⟨h1, fun n hn => h2 n (List.mem_cons_of_mem _ hn)⟩
  · rw [if_neg hnone]
    by_cases hlb : (t.heap.alloc i).lb ≥ s.base + SIZE
    · rw [if_pos hlb]
      have hmod := Int.emod_nonneg (t.heap.alloc i).lb (show (SIZE : Int) ≠ 0 by omega)
      refine span_reachesAll hpos hs (m := allocMapping i SIZE _) rfl rfl ?_ fun n hn hT hlow x h1 h2 => ?_
      · show (t.heap.alloc i).lb - (t.heap.alloc i).lb % SIZE ≤ (t.heap.alloc i).lb
        omega
      · exact startMapping_reaches (Or.inl (h.reached n hn hT hlow x h1 h2))
    · rw [if_neg hlb]
      cases hm : s.mapping with
      | some m =>
          obtain ⟨hbase, hle⟩ := h.current m hm
          exact span_reachesAll hpos hs hm hbase (hle i List.mem_cons_self) h.reached
      | none =>
          -- the allocation starts in the lowest addresses, for which no mapping is made
          have hbase := h.start hm
          have hfuel : (t.heap.alloc i).ub - s.base ≤ ((t.heap.alloc i).ub - s.base).toNat := Int.self_le_toNat _
          obtain ⟨hi, hnext, -⟩ := sorted_cons.mp hs
          have hreached : ∀ n ∈ done ++ [i], (t.heap.alloc n).T.isSome → INTPTR_MIN + SIZE ≤ (t.heap.alloc n).lb →
              ∀ x, (t.heap.alloc n).lb ≤ x → x < (t.heap.alloc n).ub →
              (coverSpan t SIZE i ((t.heap.alloc i).ub - s.base).toNat s).Reaches SIZE x := by
            intro n hn hT hlow x h1 h2
            apply coverSpan_reaches hpos hfuel
            rcases List.mem_append.mp hn with hn | hn
            · exact Or.inl (h.reached n hn hT hlow x h1 h2)
            · rw [List.mem_singleton.mp hn] at hlow
              omega
          by_cases hspan : s.base + SIZE < (t.heap.alloc i).ub
          · obtain ⟨fuel, hfuel⟩ : ∃ fuel, ((t.heap.alloc i).ub - s.base).toNat = fuel + 1 :=
              ⟨((t.heap.alloc i).ub - s.base).toNat - 1, by omega⟩
            rw [hfuel, coverSpan, if_pos hspan] at hreached ⊢
            obtain ⟨m', hm', hbase', hub'⟩ := coverSpan_current (t := t) (i := i)
              (s := startMapping t SIZE i s (s.base + SIZE)) (m := allocMapping i SIZE (s.base + SIZE)) rfl rfl
              (Int.le_of_lt hspan)
            refine ⟨hreached, fun hnone => ?_, fun m hm => ?_⟩
            · rw [hm'] at hnone
              cases hnone
            · obtain rfl : m' = m := Option.some.inj (hm'.symm.trans hm)
              exact ⟨hbase', fun n hn => Int.le_trans hub' (hnext n hn)⟩
          · rw [coverSpan_none hspan] at hreached ⊢
            refine ⟨hreached, h.start, fun m hm' => ?_⟩
            rw [hm] at hm'
            cases hm'

/-- Every byte of a trampoline is in a mapping. -/
theorem coverMappings_reach {t : Tree τ ι} {s : Shape Nat} (hl : Linked t s) {SIZE : Nat} (hpos : 0 < SIZE)
    {n : Nat} (hn : n ∈ s.inorder) (hT : (t.heap.alloc n).T.isSome) (hlow : INTPTR_MIN + SIZE ≤ (t.heap.alloc n).lb)
    {x : Int} (hlb : (t.heap.alloc n).lb ≤ x) (hub : x < (t.heap.alloc n).ub) :
    ∃ m ∈ coverMappings t SIZE, m.base ≤ x ∧ x < m.base + SIZE := by
  have hrun : ∀ (rest done : List Nat) (b : Building), s.inorder = done ++ rest → ReachesAll t SIZE done rest b →
      ReachesAll t SIZE s.inorder [] (rest.foldl (coverStep t SIZE) b) := by
    intro rest
    induction rest with
    | nil =>
        intro done b hsplit h
        rw [List.append_nil] at hsplit
        rwa [hsplit]
    | cons i rest ih =>
        intro done b hsplit h
        have hsorted : Sorted t.heap.lo t.heap.hi (i :: rest) := by
          have hall := hl.ordered.1
          rw [hsplit] at hall
          exact (sorted_append.mp hall).2.1
        apply ih (done ++ [i])
        · rw [hsplit, List.append_assoc]
          rfl
        · exact coverStep_reaches hpos hsorted h
  have hend := hrun s.inorder [] ⟨INTPTR_MIN, none, []⟩ rfl
    ⟨fun n hn => (nomatch hn), fun _ => rfl, fun m hm => (nomatch hm)⟩
  unfold coverMappings
  rw [visit_eq hl]
  exact saveMapping_reaches (hend.reached n hn hT hlow x hlb hub)

/-- Mappings at multiples of their size, with the bounds of the trampolines in them. -/
structure BasesAligned (t : Tree τ ι) (SIZE : Nat) (s : Building) : Prop where
  base : (SIZE : Int) ∣ s.base
  current : ∀ m, s.mapping = some m → m.base = s.base
  saved : ∀ m ∈ s.mappings, (SIZE : Int) ∣ m.base ∧ (m.lb, m.ub) = calculateBounds t m

theorem BasesAligned.save {t : Tree τ ι} {SIZE : Nat} {s : Building} (h : BasesAligned t SIZE s) :
    ∀ m ∈ saveMapping t s.mapping s.mappings, (SIZE : Int) ∣ m.base ∧ (m.lb, m.ub) = calculateBounds t m := by
  intro m hm
  cases hs : s.mapping with
  | none =>
      rw [hs] at hm
      exact h.saved m hm
  | some m₀ =>
      rw [hs] at hm
      rcases List.mem_append.mp hm with hm | hm
      · exact h.saved m hm
      · rw [List.mem_singleton.mp hm]
        refine ⟨?_, rfl⟩
        show (SIZE : Int) ∣ m₀.base
        rw [h.current m₀ hs]
        exact h.base

theorem BasesAligned.start {t : Tree τ ι} {SIZE i : Nat} {s : Building} (h : BasesAligned t SIZE s) {base : Int}
    (hbase : (SIZE : Int) ∣ base) : BasesAligned t SIZE (startMapping t SIZE i s base) where
  base := hbase
  current := by
    rintro m ⟨⟩
    rfl
  saved := h.save

theorem BasesAligned.span {t : Tree τ ι} {SIZE i fuel : Nat} {s : Building} (h : BasesAligned t SIZE s) :
    BasesAligned t SIZE (coverSpan t SIZE i fuel s) := by
  induction fuel generalizing s with
  | zero => exact h
  | succ fuel ih =>
      rw [coverSpan]
      split_ifs
      · exact ih (h.start (Int.dvd_add h.base (Int.dvd_refl _)))
      · exact h

theorem BasesAligned.step {t : Tree τ ι} {SIZE i : Nat} {s : Building} (h : BasesAligned t SIZE s) :
    BasesAligned t SIZE (coverStep t SIZE s i) := by
  unfold coverStep
  dsimp only
  split_ifs
  · exact h
  · exact (h.start (Int.dvd_self_sub_of_emod_eq rfl)).span
  · exact h.span

/-- A mapping is at a multiple of its size, and its bounds are those of the trampolines in it. -/
theorem coverMappings_aligned {t : Tree τ ι} {SIZE : Nat} (hmin : (SIZE : Int) ∣ INTPTR_MIN) :
    ∀ m ∈ coverMappings t SIZE, (SIZE : Int) ∣ m.base ∧ (m.lb, m.ub) = calculateBounds t m := by
  have hrun : ∀ (l : List Nat) (s : Building), BasesAligned t SIZE s → BasesAligned t SIZE (l.foldl (coverStep t SIZE) s) := by
    intro l
    induction l with
    | nil => exact fun s h => h
    | cons i l ih => exact fun s h => ih _ h.step
  have hstart : BasesAligned t SIZE ⟨INTPTR_MIN, none, []⟩ := ⟨hmin, by rintro m ⟨⟩, by rintro m ⟨⟩⟩
  exact (hrun _ _ hstart).save

/-- An occupied offset is within the bounds. -/
theorem calculateBounds_contains {t : Tree τ ι} {s : Shape Nat} (hl : Linked t s) {SIZE : Nat} {m : Mapping}
    (hc : Covers t s.inorder SIZE m) {o : Int} (ho : OffsetOccupied t s.inorder m o) :
    (calculateBounds t m).1 ≤ o ∧ o < (calculateBounds t m).2 := by
  obtain ⟨h0, h1, n, hn, hT, hlo, hhi⟩ := ho
  obtain ⟨as, bs, hsplit, hbefore⟩ := hc.split
  unfold calculateBounds
  rw [from_eq hl hsplit]
  have hsorted : Sorted t.heap.lo t.heap.hi (m.i :: bs) := by
    have hall := hl.ordered.1
    rw [hsplit] at hall
    exact (sorted_append.mp hall).2.1
  have hn' : n ∈ m.i :: bs := by
    rw [hsplit] at hn
    rcases List.mem_append.mp hn with hn | hn
    · have := hbefore n hn hT
      omega
    · exact hn
  obtain ⟨h2, h3⟩ := boundsLoop_contains m.base (m.base + m.size) hsorted hn' hT (by omega)
    (INTPTR_MAX, INTPTR_MIN)
  unfold clipLower at h2
  unfold clipUpper at h3
  split_ifs at h2 h3 <;> omega

/-- The bounds of a mapping contain the allocation at which it starts. -/
theorem calculateBounds_first {t : Tree τ ι} {s : Shape Nat} (hl : Linked t s) {SIZE : Nat} {m : Mapping}
    (hc : Covers t s.inorder SIZE m) : (calculateBounds t m).1 ≤ clipLower m.base (t.heap.alloc m.i) ∧
      clipUpper m.base (m.base + m.size) (t.heap.alloc m.i) ≤ (calculateBounds t m).2 ∧
      (t.heap.alloc m.i).lb ≤ (t.heap.alloc m.i).ub := by
  obtain ⟨as, bs, hsplit, -⟩ := hc.split
  have hupper := hc.upper
  have hsize := hc.size
  unfold calculateBounds
  rw [from_eq hl hsplit]
  have hsorted : Sorted t.heap.lo t.heap.hi (m.i :: bs) := by
    have hall := hl.ordered.1
    rw [hsplit] at hall
    exact (sorted_append.mp hall).2.1
  obtain ⟨h1, h2⟩ := boundsLoop_contains m.base (m.base + m.size) hsorted List.mem_cons_self
    hc.used (by omega) (INTPTR_MAX, INTPTR_MIN)
  exact ⟨h1, h2, (sorted_cons.mp hsorted).1⟩

theorem calculateBounds_le {t : Tree τ ι} {s : Shape Nat} (hl : Linked t s) {SIZE : Nat} {m : Mapping}
    (hc : Covers t s.inorder SIZE m) : (calculateBounds t m).1 ≤ (calculateBounds t m).2 := by
  obtain ⟨h1, h2, h3⟩ := calculateBounds_first hl hc
  have hlower := hc.lower
  have hupper := hc.upper
  have hsize := hc.size
  unfold clipLower at h1
  unfold clipUpper at h2
  split_ifs at h1 h2 <;> omega

/-! ### Shrinking -/

/-- Rounded up to a multiple. -/
def roundUp (granularity : Nat) (x : Int) : Int :=
  if x % granularity ≠ 0 then x + granularity - (x + granularity) % granularity else x

theorem roundUp_spec {granularity : Nat} (hpos : 0 < granularity) (x : Int) :
    x ≤ roundUp granularity x ∧ (granularity : Int) ∣ roundUp granularity x ∧
      ∀ y, (granularity : Int) ∣ y → x ≤ y → roundUp granularity x ≤ y := by
  have hmod := Int.emod_nonneg x (show (granularity : Int) ≠ 0 by omega)
  have hlt := Int.emod_lt_of_pos x (show (0 : Int) < granularity by omega)
  unfold roundUp
  split_ifs with hx
  · rw [Int.add_emod_right]
    refine ⟨by omega, ?_, fun y hy hle => ?_⟩
    · have hfloor : (granularity : Int) ∣ x - x % granularity := Int.dvd_self_sub_of_emod_eq rfl
      have := Int.dvd_add hfloor (Int.dvd_refl (granularity : Int))
      rwa [show x - x % granularity + granularity = x + granularity - x % granularity by omega] at this
    · -- a multiple above the floor is at least the next one
      have hfloor : (granularity : Int) ∣ x - x % granularity := Int.dvd_self_sub_of_emod_eq rfl
      have hgap := Int.le_of_dvd (show 0 < y - (x - x % granularity) by omega) (Int.dvd_sub hy hfloor)
      omega
  · refine ⟨Int.le_refl x, ?_, fun y _ hle => hle⟩
    exact Int.dvd_of_emod_eq_zero (by omega)

/-- Bounds that are in order, within the mapping, and hold all that is occupied. -/
structure Bounded (t : Tree τ ι) (live : List Nat) (SIZE : Nat) (m : Mapping) : Prop where
  size : m.size = SIZE
  lower : 0 ≤ m.lb
  order : m.lb ≤ m.ub
  upper : m.ub ≤ SIZE
  occupied : ∀ o, OffsetOccupied t live m o → m.lb ≤ o ∧ o < m.ub

theorem chainBounds_contains {chain : List Mapping} {m : Mapping} (hm : m ∈ chain) :
    (chainBounds chain).1 ≤ m.lb ∧ m.ub ≤ (chainBounds chain).2 := by
  have hfold : ∀ (chain : List Mapping) (b : Int × Int),
      let r := chain.foldl (fun b m => (min b.1 m.lb, max b.2 m.ub)) b
      r.1 ≤ b.1 ∧ b.2 ≤ r.2 ∧ ∀ m ∈ chain, r.1 ≤ m.lb ∧ m.ub ≤ r.2 := by
    intro chain
    induction chain with
    | nil => exact fun b => ⟨Int.le_refl _, Int.le_refl _, fun m hm => (nomatch hm)⟩
    | cons k chain ih =>
        intro b
        obtain ⟨h1, h2, h3⟩ := ih (min b.1 k.lb, max b.2 k.ub)
        refine ⟨Int.le_trans h1 (Int.min_le_left _ _), Int.le_trans (Int.le_max_left _ _) h2, fun m hm => ?_⟩
        rcases List.mem_cons.mp hm with rfl | hm
        · exact ⟨Int.le_trans h1 (Int.min_le_right _ _), Int.le_trans (Int.le_max_right _ _) h2⟩
        · exact h3 m hm
  exact (hfold chain _).2.2 m hm

/-- A mapping that starts `skip` bytes later and has `size` bytes. -/
def trim (skip : Int) (size : Nat) (m : Mapping) : Mapping := ⟨m.lb - skip, m.ub - skip, m.base + skip, size, m.i⟩

/-- All mappings of a chain are trimmed alike, to whole units, and nothing that is occupied is lost. -/
structure Trims (t : Tree τ ι) (live : List Nat) (granularity SIZE : Nat) (chain : List Mapping) (skip : Int)
    (size : Nat) : Prop where
  lower : 0 ≤ skip
  upper : skip + size ≤ SIZE
  skip_dvd : (granularity : Int) ∣ skip
  size_dvd : (granularity : Int) ∣ size
  lb : ∀ m ∈ chain, skip ≤ m.lb
  occupied : ∀ m ∈ chain, ∀ o, OffsetOccupied t live m o → skip ≤ o ∧ o < skip + size

theorem trims_self {t : Tree τ ι} {live : List Nat} {SIZE granularity : Nat} (hdvd : granularity ∣ SIZE)
    {chain : List Mapping} (hchain : ∀ m ∈ chain, Bounded t live SIZE m) :
    chain = chain.map (trim 0 SIZE) ∧ Trims t live granularity SIZE chain 0 SIZE := by
  constructor
  · have hself : chain.map (trim 0 SIZE) = chain.map id := by
      apply List.map_congr_left
      intro m hm
      have hsize := (hchain m hm).size
      simp only [trim, ← hsize, Int.sub_zero, Int.add_zero, id_eq]
    rw [hself, List.map_id]
  · refine ⟨Int.le_refl 0, by omega, Int.dvd_zero _, by exact_mod_cast hdvd, fun m hm => (hchain m hm).lower,
      fun m hm o ho => ?_⟩
    have hsize := (hchain m hm).size
    obtain ⟨h0, h1, -⟩ := ho
    exact ⟨h0, by omega⟩

theorem shrinkMapping_trims {t : Tree τ ι} {live : List Nat} {SIZE granularity : Nat} (hpos : 0 < granularity)
    (hdvd : granularity ∣ SIZE) {chain : List Mapping} (hchain : ∀ m ∈ chain, Bounded t live SIZE m) :
    ∃ skip size, shrinkMapping granularity chain = chain.map (trim skip size) ∧
      Trims t live granularity SIZE chain skip size := by
  have hself := trims_self hdvd hchain
  cases hcase : chain with
  | nil => exact ⟨0, SIZE, rfl, hcase ▸ hself.2⟩
  | cons mapping0 rest =>
      have h0 := hchain mapping0 (by rw [hcase]; exact List.mem_cons_self)
      have hb : ∀ m ∈ chain, (chainBounds chain).1 ≤ m.lb ∧ m.ub ≤ (chainBounds chain).2 :=
        fun m hm => chainBounds_contains hm
      obtain ⟨hb1, hb2⟩ := chainBounds_spec (Int.natCast_nonneg SIZE) fun m hm =>
        ⟨(hchain m hm).lower, (hchain m hm).upper⟩
      have horder : (chainBounds chain).1 ≤ (chainBounds chain).2 := by
        have h1 := hb mapping0 (by rw [hcase]; exact List.mem_cons_self)
        have h2 := h0.order
        omega
      rw [← hcase]
      generalize hB : chainBounds chain = b at hb hb1 hb2 horder
      obtain ⟨hup, hupdvd, hupmin⟩ := roundUp_spec hpos b.2
      have hupper := hupmin SIZE (by exact_mod_cast hdvd) hb2
      have hmod := Int.emod_nonneg b.1 (show (granularity : Int) ≠ 0 by omega)
      have hfloor : (granularity : Int) ∣ b.1 - b.1 % granularity := Int.dvd_self_sub_of_emod_eq rfl
      have hlower : 0 ≤ b.1 - b.1 % granularity := by
        have hquot := Int.mul_nonneg (Int.natCast_nonneg granularity) (Int.ediv_nonneg hb1 (Int.natCast_nonneg granularity))
        rw [Int.emod_def]
        omega
      have hdef : shrinkMapping granularity chain =
          if mapping0.size = granularity then chain
          else if roundUp granularity b.2 - (b.1 - b.1 % granularity) ≥ mapping0.size then chain
          else chain.map (trim (b.1 - b.1 % granularity)
            (roundUp granularity b.2 - (b.1 - b.1 % granularity)).toNat) := by
        rw [← hB, hcase]
        rfl
      rw [hdef]
      split_ifs with hgran hbig
      · exact ⟨0, SIZE, hself⟩
      · exact ⟨0, SIZE, hself⟩
      · have hsize : ((roundUp granularity b.2 - (b.1 - b.1 % granularity)).toNat : Int) =
            roundUp granularity b.2 - (b.1 - b.1 % granularity) := Int.toNat_of_nonneg (by omega)
        refine ⟨_, _, rfl, hlower, by omega, hfloor, ?_, fun m hm => ?_, fun m hm o ho => ?_⟩
        · rw [hsize]
          exact Int.dvd_sub hupdvd hfloor
        · have h1 := (hb m hm).1
          omega
        · obtain ⟨h1, h2⟩ := hb m hm
          obtain ⟨h3, h4⟩ := (hchain m hm).occupied o ho
          omega

end E9Patch
