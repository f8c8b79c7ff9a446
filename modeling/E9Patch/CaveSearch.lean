import E9Patch.BinPatchCaves
import E9Patch.MaximalRuns

/-!
What the search for code caves records. A section is a row of cells, words on AArch64 and bytes otherwise, and
the loop over it ends a run at each cell that is in use. The array of caves doubles when a run inside a
section finds it full, but a run that the end of the section ends is left out then.
-/

namespace E9Patch
open Reader Bytes MaximalRuns

def cellWidth (arch : Arch) : Nat := if arch = .AARCH64 then 4 else 1

/-- What stands in a cell that is not in use. -/
def unusedWords (arch : Arch) : List Nat := if arch = .AARCH64 then [0xD503201F] else [0x00, 0x90, 0xCC]

/-- The number of cells; the last one may be cut off. -/
def cellCount (arch : Arch) (size : Nat) : Nat := (size + (cellWidth arch - 1)) / cellWidth arch

/-- A cell that is whole and not in use. -/
def unusedCell (d : Block) (arch : Arch) (sec_offset : Int) (size k : Nat) : Bool :=
  cellWidth arch * k + cellWidth arch ≤ size ∧
    d.word (ptr (sec_offset + (cellWidth arch * k : Nat))) (cellWidth arch) ∈ unusedWords arch

theorem cellWidth_cases (arch : Arch) : cellWidth arch = 4 ∧ arch = .AARCH64 ∨ cellWidth arch = 1 ∧ arch ≠ .AARCH64 := by
  unfold cellWidth
  split
  · exact Or.inl ⟨rfl, ‹_›⟩
  · exact Or.inr ⟨rfl, ‹_›⟩

theorem lt_cellCount {arch : Arch} {size k : Nat} : k < cellCount arch size ↔ cellWidth arch * k < size := by
  unfold cellCount
  rcases cellWidth_cases arch with ⟨hw, -⟩ | ⟨hw, -⟩ <;> rw [hw] <;> omega

/-! ### The loop over a section, cell by cell -/

theorem read_outside {d : Block} {off : Int} {n : Nat} (h : ¬d.Has off n) : Reader.read d off n = .error .outOfBounds :=
  if_neg h

/-- A look at the first byte of a cell. -/
theorem unusedAt_cell (d : Block) (arch : Arch) (sec_offset : Int) {size k : Nat} (hk : cellWidth arch * k < size) :
    unusedAt d arch sec_offset size (cellWidth arch * k) =
      if cellWidth arch * k + cellWidth arch ≤ size ∧
        ¬d.Has (ptr (sec_offset + (cellWidth arch * k : Nat))) (cellWidth arch) then .error .outOfBounds
      else .ok (if unusedCell d arch sec_offset size k then cellWidth arch else 0) := by
  unfold unusedAt unusedCell unusedWords
  rcases cellWidth_cases arch with ⟨hw, harch⟩ | ⟨hw, harch⟩
  · rw [hw] at hk ⊢
    rw [if_pos harch, if_pos harch]
    by_cases hsize : 4 * k + 4 ≤ size
    · by_cases hhas : d.Has (ptr (sec_offset + (4 * k : Nat))) 4
      · rw [if_pos ⟨by omega, hsize⟩, if_neg (fun h => h.2 hhas), read_ok hhas]
        simp [hsize]
      · rw [if_pos ⟨by omega, hsize⟩, if_pos ⟨hsize, hhas⟩, read_outside hhas]
        rfl
    · rw [if_neg (fun h => hsize h.2), if_neg (fun h => hsize h.1)]
      simp [hsize]
  · rw [hw] at hk ⊢
    rw [if_neg harch, if_neg harch]
    by_cases hhas : d.Has (ptr (sec_offset + (1 * k : Nat))) 1
    · rw [if_neg (fun h => h.2 hhas), read_ok hhas]
      simp [show k + 1 ≤ size by omega]
    · rw [if_pos ⟨by omega, hhas⟩, read_outside hhas]
      rfl

section
variable (d : Block) (arch : Arch) (mem : CaveMemory) (sec : SectionInfo) (sec_offset : Int) (s : Nat)

theorem scan_fuel {fuel fuel' i : Nat} (st : CaveScan) (h : sec.size - i ≤ fuel) (h' : sec.size - i ≤ fuel') :
    scanSection d arch mem sec sec_offset s fuel i st = scanSection d arch mem sec sec_offset s fuel' i st := by
  induction fuel generalizing fuel' i st with
  | zero =>
      cases fuel' with
      | zero => rfl
      | succ fuel' =>
          unfold scanSection
          rw [if_neg (by omega)]
  | succ fuel ih =>
      cases fuel' with
      | zero =>
          unfold scanSection
          rw [if_neg (by omega)]
      | succ fuel' =>
          unfold scanSection
          split
          · congr 1
            funext n
            split
            · exact ih (st.extend i n) (by omega) (by omega)
            · split
              · rfl
              · exact ih _ (by omega) (by omega)
          · rfl

/-- The loop from index `i` on. -/
def scanRest (i : Nat) (st : CaveScan) : Except Fault (Bool × CaveScan) :=
  scanSection d arch mem sec sec_offset s (sec.size - i) i st

theorem scanRest_end {i : Nat} (st : CaveScan) (hi : sec.size ≤ i) :
    scanRest d arch mem sec sec_offset s i st = .ok (true, st) := by
  unfold scanRest
  rw [show sec.size - i = 0 by omega]
  rfl

theorem scanRest_eq {i : Nat} (st : CaveScan) (hi : i < sec.size) :
    scanRest d arch mem sec sec_offset s i st = (do
      let n ← unusedAt d arch sec_offset sec.size i
      if n ≠ 0 then scanRest d arch mem sec sec_offset s (i + n) (st.extend i n)
      else
        match st.endRun mem sec sec_offset s with
        | none => .ok (false, st)
        | some st => scanRest d arch mem sec sec_offset s (i + 1) st) := by
  obtain ⟨m, hm⟩ : ∃ m, sec.size - i = m + 1 := ⟨sec.size - i - 1, by omega⟩
  unfold scanRest
  rw [hm]
  conv_lhs => unfold scanSection
  rw [if_pos hi]
  congr 1
  funext n
  split
  · exact scan_fuel d arch mem sec sec_offset s _ (by omega) (Nat.le_refl _)
  · cases st.endRun mem sec sec_offset s with
    | none => rfl
    | some st₁ => exact scan_fuel d arch mem sec sec_offset s st₁ (by omega) (Nat.le_refl _)

/-- Between the words nothing is looked at. -/
theorem scanRest_gap {i : Nat} {st : CaveScan} (hw : cellWidth arch = 4) (hi : i % 4 ≠ 0) (hrun : st.in_run = false) :
    scanRest d arch mem sec sec_offset s i st = scanRest d arch mem sec sec_offset s (i + 1) st := by
  have harch : arch = .AARCH64 := by
    rcases cellWidth_cases arch with ⟨-, harch⟩ | ⟨hw', -⟩
    · exact harch
    · omega
  by_cases hsize : i < sec.size
  · have hunused : unusedAt d arch sec_offset sec.size i = .ok 0 := by
      unfold unusedAt
      rw [if_pos harch, if_neg (fun h => hi h.1)]
    have hend : st.endRun mem sec sec_offset s = some st := by
      unfold CaveScan.endRun
      rw [hrun]
      rfl
    rw [scanRest_eq _ _ _ _ _ _ st hsize, hunused, ok_bind]
    simp only [ne_eq, not_true_eq_false, if_false, hend]
  · rw [scanRest_end _ _ _ _ _ _ st (by omega), scanRest_end _ _ _ _ _ _ st (by omega)]

theorem endRun_out {mem : CaveMemory} {sec : SectionInfo} {sec_offset : Int} {s : Nat} {st st' : CaveScan}
    (h : st.endRun mem sec sec_offset s = some st') : st'.in_run = false := by
  unfold CaveScan.endRun at h
  split at h
  · split at h
    · obtain ⟨f, -, rfl⟩ := Option.map_eq_some_iff.mp h
      rfl
    · cases h
      rfl
  · rename_i hrun
    cases h
    simpa using hrun

/-- The loop from one cell to the next. -/
theorem scanRest_cell {k : Nat} (st : CaveScan) (hk : cellWidth arch * k < sec.size) :
    scanRest d arch mem sec sec_offset s (cellWidth arch * k) st =
      if cellWidth arch * k + cellWidth arch ≤ sec.size ∧
        ¬d.Has (ptr (sec_offset + (cellWidth arch * k : Nat))) (cellWidth arch) then .error .outOfBounds
      else if unusedCell d arch sec_offset sec.size k then
        scanRest d arch mem sec sec_offset s (cellWidth arch * (k + 1)) (st.extend (cellWidth arch * k) (cellWidth arch))
      else
        match st.endRun mem sec sec_offset s with
        | none => .ok (false, st)
        | some st => scanRest d arch mem sec sec_offset s (cellWidth arch * (k + 1)) st := by
  rw [scanRest_eq _ _ _ _ _ _ st hk, unusedAt_cell d arch sec_offset hk]
  split
  · rfl
  · rw [ok_bind]
    cases hcell : unusedCell d arch sec_offset sec.size k with
    | true =>
        have hpos : cellWidth arch ≠ 0 := by
          rcases cellWidth_cases arch with ⟨hw, -⟩ | ⟨hw, -⟩ <;> omega
        simp only [if_true, if_pos hpos, Nat.mul_succ]
    | false =>
        simp only [Bool.false_eq_true, if_false, ne_eq, not_true_eq_false]
        split
        · rfl
        · rename_i st₁ hend
          have hrun := endRun_out hend
          rcases cellWidth_cases arch with ⟨hw, -⟩ | ⟨hw, -⟩
          · have hgap : ∀ i, i % 4 ≠ 0 → scanRest d arch mem sec sec_offset s i st₁ =
                scanRest d arch mem sec sec_offset s (i + 1) st₁ :=
              fun i hi => scanRest_gap _ _ _ _ _ _ hw hi hrun
            rw [hw, hgap (4 * k + 1) (by omega), hgap (4 * k + 1 + 1) (by omega), hgap (4 * k + 1 + 1 + 1) (by omega)]
            exact congrArg (fun i => scanRest d arch mem sec sec_offset s i st₁) (by omega)
          · rw [hw, show 1 * k + 1 = 1 * (k + 1) by omega]

end

/-! ### Runs and what is recorded of them -/

/-- A run of unused cells, as the cave that it is, and whether the end of the section ends it. -/
structure CodeRun where
  cave : E9CodeCave
  at_end : Bool

/-- The run of `r.2` cells from cell `r.1` on. -/
def codeRun (arch : Arch) (sec : SectionInfo) (sec_offset : Int) (s : Nat) (r : Nat × Nat) : CodeRun :=
  ⟨⟨ptr (sec.addr + (cellWidth arch * r.1 : Nat)), ptr (sec_offset + (cellWidth arch * r.1 : Nat)),
    cellWidth arch * r.2, sec.flags &&& E9_SECFLAG_WRITE ≠ 0, s⟩, r.1 + r.2 = cellCount arch sec.size⟩

/-- An array of at first `C` caves is full with `n` of them. -/
def Full (C n : Nat) : Prop := ∃ k, n = C * 2 ^ k

/-- What becomes of a run. -/
def CaveKept (C min n : Nat) (r : CodeRun) : Prop := min ≤ r.cave.size ∧ ¬(r.at_end = true ∧ Full C n)

open Classical in
/-- The caves, once the run was looked at. -/
noncomputable def record (C min : Nat) (caves : List E9CodeCave) (r : CodeRun) : List E9CodeCave :=
  if CaveKept C min caves.length r then caves ++ [r.cave] else caves

/-- The array has grown no more than it had to. -/
structure Grown (C : Nat) (f : E9CaveFinder) : Prop where
  pos : 0 < C
  capacity : ∃ k, f.caves_capacity = C * 2 ^ k ∧ f.caves.length ≤ C * 2 ^ k ∧ ∀ j < k, C * 2 ^ j < f.caves.length

theorem pow_mono {C j k : Nat} (h : j ≤ k) : C * 2 ^ j ≤ C * 2 ^ k :=
  Nat.mul_le_mul_left C (Nat.pow_le_pow_right (by decide) h)

theorem Grown.lt_iff {C : Nat} {f : E9CaveFinder} (h : Grown C f) :
    f.caves.length < f.caves_capacity ↔ ¬Full C f.caves.length := by
  obtain ⟨k, hcap, hle, hleast⟩ := h.capacity
  rw [hcap]
  constructor
  · rintro hlt ⟨j, hj⟩
    have hjk : j < k := by
      by_contra hkj
      have hmono := @pow_mono C k j (by omega)
      omega
    have := hleast j hjk
    omega
  · intro hfull
    have hne : f.caves.length ≠ C * 2 ^ k := fun heq => hfull ⟨k, heq⟩
    omega

/-- A cave is added where there is room. -/
theorem Grown.add {C : Nat} {f : E9CaveFinder} (h : Grown C f) (hroom : f.caves.length < f.caves_capacity)
    (cave : E9CodeCave) : Grown C (f.add cave) := by
  obtain ⟨k, hcap, hle, hleast⟩ := h.capacity
  refine ⟨h.pos, k, hcap, ?_, fun j hj => ?_⟩
  · simp only [E9CaveFinder.add, List.length_append, List.length_singleton]
    omega
  · have := hleast j hj
    simp only [E9CaveFinder.add, List.length_append, List.length_singleton]
    omega

/-- Room is made for one more cave. -/
theorem Grown.reserve {C : Nat} {f f' : E9CaveFinder} {mem : CaveMemory} (h : Grown C f)
    (hf : f.reserve mem = some f') (cave : E9CodeCave) : Grown C (f'.add cave) := by
  obtain ⟨k, hcap, hle, hleast⟩ := h.capacity
  unfold E9CaveFinder.reserve at hf
  split at hf
  · rename_i hfull
    split at hf
    · cases hf
      have hpow : 0 < C * 2 ^ k := Nat.mul_pos h.pos (Nat.pow_pos (by decide))
      have hsucc : C * 2 ^ (k + 1) = C * 2 ^ k * 2 := by rw [Nat.pow_succ, Nat.mul_assoc]
      refine ⟨h.pos, k + 1, ?_, ?_, fun j hj => ?_⟩
      · simp only [E9CaveFinder.add]
        omega
      · simp only [E9CaveFinder.add, List.length_append, List.length_singleton]
        omega
      · have hmono := @pow_mono C j k (by omega)
        simp only [E9CaveFinder.add, List.length_append, List.length_singleton]
        omega
    · cases hf
  · cases hf
    exact h.add (by omega) cave

theorem cave_reserve_keeps {f f' : E9CaveFinder} {mem : CaveMemory} (h : f.reserve mem = some f') :
    f'.min_cave_size = f.min_cave_size := by
  unfold E9CaveFinder.reserve at h
  split at h
  · split at h
    · cases h
      rfl
    · cases h
  · cases h
    rfl

section
variable (d : Block) (arch : Arch) (mem : CaveMemory) (sec : SectionInfo) (sec_offset : Int) (s : Nat)

/-- The runs that are closed and the run that is open, as the loop has them at cell `k`. -/
structure ScanState (C min : Nat) (caves : List E9CodeCave) (k : Nat) (st : CaveScan) : Prop where
  grown : Grown C st.finder
  min_size : st.finder.min_cave_size = min
  in_run : st.in_run = true ↔ openRun (unusedCell d arch sec_offset sec.size) k ≠ 0
  run : st.in_run = true →
    st.run_start = cellWidth arch * (k - openRun (unusedCell d arch sec_offset sec.size) k) ∧
      st.run_len = cellWidth arch * openRun (unusedCell d arch sec_offset sec.size) k
  closed : st.finder.caves =
    ((closedRuns (unusedCell d arch sec_offset sec.size) k).map (codeRun arch sec sec_offset s)).foldl (record C min) caves

variable {d arch mem sec sec_offset s} {C min : Nat} {caves : List E9CodeCave} {k : Nat} {st : CaveScan}

/-- The open run, as a cave. -/
theorem ScanState.cave (h : ScanState d arch sec sec_offset s C min caves k st) (hrun : st.in_run = true) :
    ∃ r, lastRun (unusedCell d arch sec_offset sec.size) k = [r] ∧ r.1 + r.2 = k ∧
      (codeRun arch sec sec_offset s r).cave = st.cave sec sec_offset s := by
  have hle := @openRun_le (unusedCell d arch sec_offset sec.size) k
  obtain ⟨hstart, hlen⟩ := h.run hrun
  refine ⟨_, if_neg (h.in_run.mp hrun), by simp only; omega, ?_⟩
  simp only [codeRun, CaveScan.cave, hstart, hlen]

/-- An unused cell. -/
theorem ScanState.extend (h : ScanState d arch sec sec_offset s C min caves k st)
    (hcell : unusedCell d arch sec_offset sec.size k = true) :
    ScanState d arch sec sec_offset s C min caves (k + 1) (st.extend (cellWidth arch * k) (cellWidth arch)) := by
  have hopen : openRun (unusedCell d arch sec_offset sec.size) (k + 1) =
      openRun (unusedCell d arch sec_offset sec.size) k + 1 := if_pos hcell
  have hclosed : closedRuns (unusedCell d arch sec_offset sec.size) (k + 1) =
      closedRuns (unusedCell d arch sec_offset sec.size) k := if_pos hcell
  have hin : (st.extend (cellWidth arch * k) (cellWidth arch)).in_run = true := by
    unfold CaveScan.extend
    split
    · assumption
    · rfl
  have hfinder : (st.extend (cellWidth arch * k) (cellWidth arch)).finder = st.finder := by
    unfold CaveScan.extend
    split <;> rfl
  refine ⟨hfinder ▸ h.grown, hfinder ▸ h.min_size, ?_, fun _ => ?_, ?_⟩
  · rw [hin, hopen]
    exact ⟨fun _ => Nat.succ_ne_zero _, fun _ => rfl⟩
  · rw [hopen, Nat.add_sub_add_right]
    unfold CaveScan.extend
    split
    · rename_i hrun
      obtain ⟨hstart, hlen⟩ := h.run hrun
      exact ⟨hstart, by simp only [hlen, Nat.mul_succ]⟩
    · rename_i hrun
      have hnone : openRun (unusedCell d arch sec_offset sec.size) k = 0 :=
        not_not.mp (fun hne => hrun (h.in_run.mpr hne))
      rw [hnone]
      exact ⟨rfl, by simp only [Nat.zero_add, Nat.mul_one]⟩
  · rw [hfinder, hclosed]
    exact h.closed

/-- A cell that is in use, or cut off. -/
theorem ScanState.endRun (h : ScanState d arch sec sec_offset s C min caves k st)
    (hcell : unusedCell d arch sec_offset sec.size k = false) (hk : k < cellCount arch sec.size) {st' : CaveScan}
    (hend : st.endRun mem sec sec_offset s = some st') :
    ScanState d arch sec sec_offset s C min caves (k + 1) st' := by
  have hout := endRun_out hend
  have hopen : openRun (unusedCell d arch sec_offset sec.size) (k + 1) = 0 := if_neg (by simp [hcell])
  have hclosed : closedRuns (unusedCell d arch sec_offset sec.size) (k + 1) =
      closedRuns (unusedCell d arch sec_offset sec.size) k ++ lastRun (unusedCell d arch sec_offset sec.size) k :=
    if_neg (by simp [hcell])
  have hin : st'.in_run = true ↔ openRun (unusedCell d arch sec_offset sec.size) (k + 1) ≠ 0 := by
    rw [hout, hopen]
    simp
  have hrun : ¬st'.in_run = true := by simp [hout]
  have hcaves := h.closed
  unfold CaveScan.endRun at hend
  split at hend
  · rename_i hin'
    obtain ⟨r, hlast, hlen, hcave⟩ := h.cave hin'
    have hinside : (codeRun arch sec sec_offset s r).at_end = false := by
      simp only [codeRun, decide_eq_false_iff_not]
      omega
    have hsize : (codeRun arch sec sec_offset s r).cave.size = st.run_len := by
      rw [hcave]
      rfl
    split at hend
    · rename_i hmin
      obtain ⟨f, hf, rfl⟩ := Option.map_eq_some_iff.mp hend
      have hkept : CaveKept C min st.finder.caves.length (codeRun arch sec sec_offset s r) := by
        refine ⟨?_, fun hfull => ?_⟩
        · rw [hsize, ← h.min_size]
          exact hmin
        · rw [hinside] at hfull
          cases hfull.1
      refine ⟨h.grown.reserve hf _, (cave_reserve_keeps hf).trans h.min_size, hin, fun hc => absurd hc hrun, ?_⟩
      rw [hclosed, hlast, List.map_append, List.foldl_append, ← hcaves]
      simp only [E9CaveFinder.add, reserve_caves hf, List.map_cons, List.map_nil, List.foldl_cons, List.foldl_nil]
      unfold record
      rw [if_pos hkept, hcave]
    · rename_i hmin
      cases hend
      have hkept : ¬CaveKept C min st.finder.caves.length (codeRun arch sec sec_offset s r) := by
        rintro ⟨hle, -⟩
        rw [hsize, ← h.min_size] at hle
        exact hmin hle
      refine ⟨h.grown, h.min_size, hin, fun hc => absurd hc hrun, ?_⟩
      rw [hclosed, hlast, List.map_append, List.foldl_append, ← hcaves]
      simp only [List.map_cons, List.map_nil, List.foldl_cons, List.foldl_nil]
      unfold record
      rw [if_neg hkept]
  · rename_i hin'
    cases hend
    have hnone : openRun (unusedCell d arch sec_offset sec.size) k = 0 :=
      not_not.mp (fun hne => hin' (h.in_run.mpr hne))
    refine ⟨h.grown, h.min_size, hin, fun hc => absurd hc hrun, ?_⟩
    rw [hclosed, lastRun, if_pos hnone, List.append_nil]
    exact hcaves

/-- The end of the section. -/
theorem ScanState.finish (h : ScanState d arch sec sec_offset s C min caves (cellCount arch sec.size) st) :
    Grown C (st.finish sec sec_offset s) ∧ (st.finish sec sec_offset s).min_cave_size = min ∧
      (st.finish sec sec_offset s).caves =
        ((runs (unusedCell d arch sec_offset sec.size) (cellCount arch sec.size)).map
          (codeRun arch sec sec_offset s)).foldl (record C min) caves := by
  have hcaves := h.closed
  unfold runs
  rw [List.map_append, List.foldl_append, ← hcaves]
  unfold CaveScan.finish
  by_cases hrun : st.in_run = true
  · obtain ⟨r, hlast, hlen, hcave⟩ := h.cave hrun
    have hend : (codeRun arch sec sec_offset s r).at_end = true := by
      simp only [codeRun, decide_eq_true_eq]
      exact hlen
    have hsize : (codeRun arch sec sec_offset s r).cave.size = st.run_len := by
      rw [hcave]
      rfl
    rw [hlast]
    simp only [List.map_cons, List.map_nil, List.foldl_cons, List.foldl_nil]
    unfold record
    by_cases hkept : CaveKept C min st.finder.caves.length (codeRun arch sec sec_offset s r)
    · have hroom : st.finder.caves.length < st.finder.caves_capacity :=
        h.grown.lt_iff.mpr fun hfull => hkept.2 ⟨hend, hfull⟩
      have hmin := hkept.1
      rw [hsize, ← h.min_size] at hmin
      rw [if_pos hkept, if_pos ⟨hrun, hmin, hroom⟩, hcave]
      exact ⟨h.grown.add hroom _, h.min_size, rfl⟩
    · have hno : ¬(st.in_run = true ∧ st.run_len ≥ st.finder.min_cave_size ∧
          st.finder.caves.length < st.finder.caves_capacity) := by
        rintro ⟨-, hmin, hroom⟩
        refine hkept ⟨?_, fun hfull => h.grown.lt_iff.mp hroom hfull.2⟩
        rw [hsize, ← h.min_size]
        exact hmin
      rw [if_neg hkept, if_neg hno]
      exact ⟨h.grown, h.min_size, rfl⟩
  · have hnone : openRun (unusedCell d arch sec_offset sec.size) (cellCount arch sec.size) = 0 :=
      not_not.mp (fun hne => hrun (h.in_run.mpr hne))
    rw [lastRun, if_pos hnone, if_neg (fun hc => hrun hc.1)]
    exact ⟨h.grown, h.min_size, rfl⟩

/-- Every cell that is looked at is in the file. -/
def CellsRead (d : Block) (arch : Arch) (sec : SectionInfo) (sec_offset : Int) : Prop :=
  ∀ k, cellWidth arch * k + cellWidth arch ≤ sec.size →
    d.Has (ptr (sec_offset + (cellWidth arch * k : Nat))) (cellWidth arch)

/-- A loop that gets to the end of the section. -/
theorem ScanState.scan (h : ScanState d arch sec sec_offset s C min caves k st) (hk : k ≤ cellCount arch sec.size)
    {st' : CaveScan} (hscan : scanRest d arch mem sec sec_offset s (cellWidth arch * k) st = .ok (true, st')) :
    ScanState d arch sec sec_offset s C min caves (cellCount arch sec.size) st' ∧
      ∀ j, k ≤ j → cellWidth arch * j + cellWidth arch ≤ sec.size →
        d.Has (ptr (sec_offset + (cellWidth arch * j : Nat))) (cellWidth arch) := by
  induction hm : cellCount arch sec.size - k generalizing k st with
  | zero =>
      have hcount : k = cellCount arch sec.size := by omega
      have hend : sec.size ≤ cellWidth arch * k := by
        by_contra hlt
        have := (@lt_cellCount arch sec.size k).mpr (by omega)
        omega
      rw [scanRest_end _ _ _ _ _ _ st hend] at hscan
      cases hscan
      refine ⟨hcount ▸ h, fun j hj hsize => ?_⟩
      have hmono : cellWidth arch * k ≤ cellWidth arch * j := Nat.mul_le_mul_left _ hj
      rcases cellWidth_cases arch with ⟨hw, -⟩ | ⟨hw, -⟩ <;> omega
  | succ m ih =>
      have hlt : k < cellCount arch sec.size := by omega
      rw [scanRest_cell d arch mem sec sec_offset s st (lt_cellCount.mp hlt)] at hscan
      split at hscan
      · cases hscan
      · rename_i hread
        have hhas : cellWidth arch * k + cellWidth arch ≤ sec.size →
            d.Has (ptr (sec_offset + (cellWidth arch * k : Nat))) (cellWidth arch) :=
          fun hsize => not_not.mp fun hno => hread ⟨hsize, hno⟩
        have hrest : ∀ {st₁ : CaveScan}, ScanState d arch sec sec_offset s C min caves (k + 1) st₁ →
            scanRest d arch mem sec sec_offset s (cellWidth arch * (k + 1)) st₁ = .ok (true, st') →
            ScanState d arch sec sec_offset s C min caves (cellCount arch sec.size) st' ∧
              ∀ j, k ≤ j → cellWidth arch * j + cellWidth arch ≤ sec.size →
                d.Has (ptr (sec_offset + (cellWidth arch * j : Nat))) (cellWidth arch) := by
          intro st₁ h₁ hscan₁
          obtain ⟨hst, hreads⟩ := ih h₁ (by omega) hscan₁ (by omega)
          refine ⟨hst, fun j hj => ?_⟩
          rcases Nat.eq_or_lt_of_le hj with rfl | hj
          · exact hhas
          · exact hreads j hj
        split at hscan
        · exact hrest (h.extend ‹_›) hscan
        · rename_i hcell
          cases hend : st.endRun mem sec sec_offset s with
          | none =>
              rw [hend] at hscan
              cases hscan
          | some st₁ =>
              rw [hend] at hscan
              exact hrest (h.endRun (by simpa using hcell) hlt hend) hscan

/-- The loop has a result where the section is in the file. -/
theorem scan_total (hreads : CellsRead d arch sec sec_offset) (hk : k ≤ cellCount arch sec.size) :
    ∃ ok st', scanRest d arch mem sec sec_offset s (cellWidth arch * k) st = .ok (ok, st') := by
  induction hm : cellCount arch sec.size - k generalizing k st with
  | zero =>
      have hend : sec.size ≤ cellWidth arch * k := by
        by_contra hlt
        have := (@lt_cellCount arch sec.size k).mpr (by omega)
        omega
      exact ⟨true, st, scanRest_end _ _ _ _ _ _ st hend⟩
  | succ m ih =>
      have hlt : k < cellCount arch sec.size := by omega
      rw [scanRest_cell d arch mem sec sec_offset s st (lt_cellCount.mp hlt), if_neg (fun h => h.2 (hreads k h.1))]
      split
      · exact ih (by omega) (by omega)
      · cases st.endRun mem sec sec_offset s with
        | none => exact ⟨false, st, rfl⟩
        | some st₁ => exact ih (by omega) (by omega)

/-- The loop stops early only where the array cannot grow. -/
theorem scan_grows (hgrow : ∀ n, mem.grow n = true) {fuel i : Nat} {ok : Bool} {st' : CaveScan}
    (hscan : scanSection d arch mem sec sec_offset s fuel i st = .ok (ok, st')) : ok = true := by
  induction fuel generalizing i st with
  | zero =>
      cases hscan
      rfl
  | succ fuel ih =>
      unfold scanSection at hscan
      split at hscan
      · obtain ⟨n, -, hscan⟩ := of_bind hscan
        split at hscan
        · exact ih hscan
        · cases hend : st.endRun mem sec sec_offset s with
          | none =>
              unfold CaveScan.endRun E9CaveFinder.reserve at hend
              simp only [hgrow, if_true] at hend
              split at hend
              · split at hend
                · split at hend <;> cases hend
                · cases hend
              · cases hend
          | some st₁ =>
              rw [hend] at hscan
              exact ih hscan
      · cases hscan
        rfl

end

end E9Patch
