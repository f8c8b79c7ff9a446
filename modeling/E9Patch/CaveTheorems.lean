import E9Patch.CaveSearch
import E9Patch.CaveRanges

/-!
The code caves of a binary: the search records exactly the maximal runs that are large enough, and what is
allocated from them does not overlap, exactly if no run that the end of a section ends meets a full array, the
finder has the size that is asked for, sections end where addresses do not wrap around, and runs of
different sections are apart.
-/

namespace E9Patch
open Reader MaximalRuns

set_option maxRecDepth 20000

variable {d : Block} {bin : E9Binary}

/-! ### The sections -/

section
variable (d : Block) (bin : E9Binary)

/-- The runs of section number `s`, which must be executable and in the file. -/
def sectionRuns (sec : SectionInfo) (s : Nat) : List CodeRun :=
  let sec_offset := e9_binpatch_vaddr_to_offset d bin sec.addr
  if sec.flags &&& E9_SECFLAG_EXEC ≠ 0 ∧ sec_offset + sec.size ≤ d.size then
    (runs (unusedCell d bin.arch sec_offset sec.size) (cellCount bin.arch sec.size)).map
      (codeRun bin.arch sec sec_offset s)
  else []

/-- The runs of the sections from number `s` on. -/
def codeRuns : List SectionInfo → Nat → List CodeRun
  | [], _ => []
  | sec :: secs, s => sectionRuns d bin sec s ++ codeRuns secs (s + 1)

/-- A section that is searched does not wrap around, unless it has no cell. -/
def EndsInFile (sec : SectionInfo) : Prop :=
  sec.flags &&& E9_SECFLAG_EXEC ≠ 0 → ptr (e9_binpatch_vaddr_to_offset d bin sec.addr + sec.size) ≤ d.size →
    e9_binpatch_vaddr_to_offset d bin sec.addr + sec.size ≤ d.size ∨ sec.size < cellWidth bin.arch

end

/-- Where the search does not pass a section over, all its cells are in the file unless it wraps around. -/
theorem reads_iff {arch : Arch} {sec : SectionInfo} {sec_offset : Int} (hoff : IsWord sec_offset)
    (hkept : ptr (sec_offset + sec.size) ≤ d.size) :
    CellsRead d arch sec sec_offset ↔ sec_offset + sec.size ≤ d.size ∨ sec.size < cellWidth arch := by
  have hsize := d.size_lt
  unfold IsWord at hoff
  unfold ptr at hkept
  constructor
  · intro hreads
    by_contra hno
    obtain ⟨hbeyond, hcell⟩ : ¬sec_offset + sec.size ≤ d.size ∧ ¬sec.size < cellWidth arch := not_or.mp hno
    -- the first cell that the file ends before, or in
    obtain ⟨k, hk⟩ : ∃ k : Nat, k = ((d.size - sec_offset) / (cellWidth arch : Nat)).toNat := ⟨_, rfl⟩
    rcases cellWidth_cases arch with ⟨hw, -⟩ | ⟨hw, -⟩
    · have hhas := hreads k (by rw [hw] at hk ⊢; omega)
      unfold Block.Has ptr at hhas
      rw [hw] at hhas hk
      omega
    · have hhas := hreads k (by rw [hw] at hk ⊢; omega)
      unfold Block.Has ptr at hhas
      rw [hw] at hhas hk
      omega
  · rintro (hin | hcell) k hk
    · unfold Block.Has ptr
      omega
    · omega

theorem findInSection_spec {mem : CaveMemory} {sec : SectionInfo} {s C : Nat} {f f' : E9CaveFinder} (hf : Grown C f)
    (h : findInSection d bin mem sec s f = .ok (true, f')) :
    Grown C f' ∧ f'.min_cave_size = f.min_cave_size ∧
      f'.caves = (sectionRuns d bin sec s).foldl (record C f.min_cave_size) f.caves ∧ EndsInFile d bin sec := by
  have hoff := isWord_offset d bin sec.addr
  unfold IsWord at hoff
  unfold findInSection at h
  unfold sectionRuns EndsInFile
  split at h
  · rename_i hexec
    cases h
    refine ⟨hf, rfl, ?_, fun hno => absurd hexec hno⟩
    rw [if_neg (fun hc => hc.1 hexec)]
    rfl
  · rename_i hexec
    simp only at h
    split at h
    · rename_i hout
      cases h
      have hbeyond : ¬e9_binpatch_vaddr_to_offset d bin sec.addr + sec.size ≤ d.size := by
        have hsize := d.size_lt
        unfold ptr at hout
        omega
      refine ⟨hf, rfl, ?_, fun _ hin => absurd hin (by omega)⟩
      rw [if_neg (fun hc => hbeyond hc.2)]
      rfl
    · rename_i hin
      obtain ⟨⟨ok, st⟩, hscan, h⟩ := of_bind h
      simp only [Except.ok.injEq, Prod.mk.injEq] at h
      obtain ⟨rfl, rfl⟩ := h
      have hstart : ScanState d bin.arch sec (e9_binpatch_vaddr_to_offset d bin sec.addr) s C f.min_cave_size f.caves 0
          ⟨false, 0, 0, f⟩ :=
        ⟨hf, rfl, ⟨nofun, fun hne => absurd rfl hne⟩, nofun, rfl⟩
      have hscan : scanRest d bin.arch mem sec (e9_binpatch_vaddr_to_offset d bin sec.addr) s (cellWidth bin.arch * 0)
          ⟨false, 0, 0, f⟩ = .ok (true, st) := hscan
      obtain ⟨hst, hreads⟩ := hstart.scan (Nat.zero_le _) hscan
      obtain ⟨hgrown, hmin, hcaves⟩ := hst.finish
      have hends := (@reads_iff d bin.arch sec _ (isWord_offset d bin sec.addr) (Int.not_lt.mp hin)).mp
        fun k hk => hreads k (Nat.zero_le _) hk
      refine ⟨hgrown, hmin, ?_, fun _ _ => hends⟩
      simp only [if_true]
      rw [hcaves]
      by_cases hfile : e9_binpatch_vaddr_to_offset d bin sec.addr + sec.size ≤ d.size
      · rw [if_pos ⟨hexec, hfile⟩]
      · have hcell : sec.size < cellWidth bin.arch := hends.resolve_left hfile
        have hnone : runs (unusedCell d bin.arch (e9_binpatch_vaddr_to_offset d bin sec.addr) sec.size)
            (cellCount bin.arch sec.size) = [] := by
          refine List.eq_nil_iff_forall_not_mem.mpr fun ⟨a, l⟩ hmem => ?_
          have hrun := mem_runs.mp hmem
          have hfirst := hrun.all 0 hrun.pos
          simp only [unusedCell, decide_eq_true_eq] at hfirst
          omega
        rw [if_neg (fun hc => hfile hc.2), hnone]
        rfl

theorem findInSection_total (mem : CaveMemory) {sec : SectionInfo} (s : Nat) (f : E9CaveFinder)
    (hends : EndsInFile d bin sec) : ∃ ok f', findInSection d bin mem sec s f = .ok (ok, f') := by
  unfold findInSection
  split
  · exact ⟨true, f, rfl⟩
  · rename_i hexec
    simp only
    split
    · exact ⟨true, f, rfl⟩
    · rename_i hin
      have hreads := (reads_iff (isWord_offset d bin sec.addr) (Int.not_lt.mp hin)).mpr (hends hexec (Int.not_lt.mp hin))
      obtain ⟨ok, st, hscan⟩ := @scan_total d bin.arch mem sec _ s 0 ⟨false, 0, 0, f⟩ hreads (Nat.zero_le _)
      have hscan : scanSection d bin.arch mem sec (e9_binpatch_vaddr_to_offset d bin sec.addr) s sec.size 0
          ⟨false, 0, 0, f⟩ = .ok (ok, st) := hscan
      rw [hscan]
      exact ⟨_, _, rfl⟩

theorem findInSection_grows {mem : CaveMemory} (hgrow : ∀ n, mem.grow n = true) {sec : SectionInfo} {s : Nat}
    {f f' : E9CaveFinder} {ok : Bool} (h : findInSection d bin mem sec s f = .ok (ok, f')) : ok = true := by
  unfold findInSection at h
  split at h
  · cases h
    rfl
  · simp only at h
    split at h
    · cases h
      rfl
    · obtain ⟨⟨ok', st⟩, hscan, h⟩ := of_bind h
      simp only [Except.ok.injEq, Prod.mk.injEq] at h
      exact h.1 ▸ scan_grows hgrow hscan

theorem findInSections_spec {mem : CaveMemory} {secs : List SectionInfo} {s C : Nat} {f f' : E9CaveFinder}
    (hf : Grown C f) (h : findInSections d bin mem secs s f = .ok (true, f')) :
    f'.caves = (codeRuns d bin secs s).foldl (record C f.min_cave_size) f.caves ∧
      ∀ sec ∈ secs, EndsInFile d bin sec := by
  induction secs generalizing s f with
  | nil =>
      cases h
      exact ⟨rfl, List.forall_mem_nil _⟩
  | cons sec secs ih =>
      unfold findInSections at h
      obtain ⟨⟨ok, f₁⟩, h₁, h⟩ := of_bind h
      simp only at h
      cases ok with
      | false => cases h
      | true =>
          obtain ⟨hgrown, hmin, hcaves, hends⟩ := findInSection_spec hf h₁
          obtain ⟨hrest, hall⟩ := ih hgrown h
          refine ⟨?_, List.forall_mem_cons.mpr ⟨hends, hall⟩⟩
          rw [hrest, hmin, hcaves, codeRuns, List.foldl_append]

theorem findInSections_total (mem : CaveMemory) {secs : List SectionInfo} (s : Nat) (f : E9CaveFinder)
    (hends : ∀ sec ∈ secs, EndsInFile d bin sec) : ∃ ok f', findInSections d bin mem secs s f = .ok (ok, f') := by
  induction secs generalizing s f with
  | nil => exact ⟨true, f, rfl⟩
  | cons sec secs ih =>
      obtain ⟨hsec, hsecs⟩ := List.forall_mem_cons.mp hends
      obtain ⟨ok, f₁, h₁⟩ := findInSection_total mem s f hsec
      unfold findInSections
      rw [h₁, ok_bind]
      cases ok with
      | false => exact ⟨false, f₁, rfl⟩
      | true => exact ih (s + 1) f₁ hsecs

theorem findInSections_grows {mem : CaveMemory} (hgrow : ∀ n, mem.grow n = true) {secs : List SectionInfo} {s : Nat}
    {f f' : E9CaveFinder} {ok : Bool} (h : findInSections d bin mem secs s f = .ok (ok, f')) : ok = true := by
  induction secs generalizing s f with
  | nil =>
      cases h
      rfl
  | cons sec secs ih =>
      unfold findInSections at h
      obtain ⟨⟨ok₁, f₁⟩, h₁, h⟩ := of_bind h
      rw [findInSection_grows hgrow h₁] at h
      exact ih h

/-! ### What is recorded, and what should be -/

/-- A cave that should be recorded: a maximal run of at least `min` bytes in an executable section of the file. -/
def MaximalCave (d : Block) (bin : E9Binary) (min : Nat) (cave : E9CodeCave) : Prop :=
  ∃ s sec, bin.sections[s]? = some sec ∧ sec.flags &&& E9_SECFLAG_EXEC ≠ 0 ∧
    e9_binpatch_vaddr_to_offset d bin sec.addr + sec.size ≤ d.size ∧
    ∃ start len, IsRun (unusedCell d bin.arch (e9_binpatch_vaddr_to_offset d bin sec.addr) sec.size)
        (cellCount bin.arch sec.size) start len ∧ min ≤ cellWidth bin.arch * len ∧
      cave = (codeRun bin.arch sec (e9_binpatch_vaddr_to_offset d bin sec.addr) s (start, len)).cave

/-- The runs of at least `min` bytes. -/
def large (min : Nat) (rs : List CodeRun) : List CodeRun := rs.filter fun r => min ≤ r.cave.size

theorem mem_codeRuns {secs : List SectionInfo} {s : Nat} {r : CodeRun} :
    r ∈ codeRuns d bin secs s ↔ ∃ i sec, secs[i]? = some sec ∧ r ∈ sectionRuns d bin sec (s + i) := by
  induction secs generalizing s with
  | nil => simp [codeRuns]
  | cons sec secs ih =>
      rw [codeRuns, List.mem_append, ih]
      constructor
      · rintro (hr | ⟨i, sec', hget, hr⟩)
        · exact ⟨0, sec, rfl, hr⟩
        · exact ⟨i + 1, sec', hget, by rwa [show s + (i + 1) = s + 1 + i by omega]⟩
      · rintro ⟨i, sec', hget, hr⟩
        cases i with
        | zero =>
            cases Option.some.inj hget
            exact Or.inl hr
        | succ i => exact Or.inr ⟨i, sec', hget, by rwa [show s + 1 + i = s + (i + 1) by omega]⟩

theorem mem_large {min : Nat} {cave : E9CodeCave} :
    cave ∈ (large min (codeRuns d bin bin.sections 0)).map CodeRun.cave ↔ MaximalCave d bin min cave := by
  unfold large MaximalCave
  simp only [List.mem_map, List.mem_filter, mem_codeRuns, Nat.zero_add, decide_eq_true_eq]
  constructor
  · rintro ⟨r, ⟨⟨s, sec, hget, hr⟩, hmin⟩, rfl⟩
    unfold sectionRuns at hr
    simp only at hr
    split at hr
    · rename_i hkept
      obtain ⟨⟨start, len⟩, hrun, rfl⟩ := List.mem_map.mp hr
      exact ⟨s, sec, hget, hkept.1, hkept.2, start, len, mem_runs.mp hrun, hmin, rfl⟩
    · cases hr
  · rintro ⟨s, sec, hget, hexec, hfile, start, len, hrun, hmin, rfl⟩
    refine ⟨_, ⟨⟨s, sec, hget, ?_⟩, hmin⟩, rfl⟩
    unfold sectionRuns
    simp only
    rw [if_pos ⟨hexec, hfile⟩]
    exact List.mem_map_of_mem (mem_runs.mpr hrun)

/-- A run is not listed twice. -/
theorem codeRuns_nodup {secs : List SectionInfo} {s : Nat} : ((codeRuns d bin secs s).map CodeRun.cave).Nodup := by
  have hidx : ∀ sec s, ∀ r ∈ sectionRuns d bin sec s, r.cave.section_idx = s := by
    intro sec s r hr
    unfold sectionRuns at hr
    simp only at hr
    split at hr
    · obtain ⟨-, -, rfl⟩ := List.mem_map.mp hr
      rfl
    · cases hr
  induction secs generalizing s with
  | nil => exact List.nodup_nil
  | cons sec secs ih =>
      rw [codeRuns, List.map_append, List.nodup_append]
      refine ⟨?_, ih, ?_⟩
      · unfold sectionRuns
        simp only
        split
        · rename_i hkept
          rw [List.map_map]
          refine List.pairwise_map.mpr (runs_ascending.imp_of_mem fun {r r'} hr hr' hlt heq => ?_)
          have hoff := isWord_offset d bin sec.addr
          have hsize := d.size_lt
          have hrun := mem_runs.mp hr'
          have hstart := lt_cellCount.mp (show r'.1 < cellCount bin.arch sec.size from by
            have hpos := hrun.pos
            have hle := hrun.le
            omega)
          have hmono : cellWidth bin.arch * r.1 + cellWidth bin.arch ≤ cellWidth bin.arch * r'.1 := by
            rw [← Nat.mul_succ]
            exact Nat.mul_le_mul_left _ (by omega)
          have hpos : 0 < cellWidth bin.arch := by
            rcases cellWidth_cases bin.arch with ⟨hw, -⟩ | ⟨hw, -⟩ <;> omega
          have hoffset := congrArg E9CodeCave.offset heq
          unfold IsWord at hoff
          simp only [Function.comp_apply, codeRun, ptr] at hoffset
          omega
        · exact List.nodup_nil
      · intro cave hcave cave' hcave' heq
        obtain ⟨r, hr, rfl⟩ := List.mem_map.mp hcave
        obtain ⟨r', hr', rfl⟩ := List.mem_map.mp hcave'
        obtain ⟨i, sec', -, hr'⟩ := mem_codeRuns.mp hr'
        have hleft := hidx _ _ r hr
        have hright := hidx _ _ r' hr'
        rw [heq] at hleft
        omega

section
variable {C min want : Nat}

theorem mem_record {caves : List E9CodeCave} {rs : List CodeRun} {cave : E9CodeCave}
    (h : cave ∈ rs.foldl (record C min) caves) : cave ∈ caves ∨ cave ∈ rs.map CodeRun.cave := by
  induction rs generalizing caves with
  | nil => exact Or.inl h
  | cons r rs ih =>
      rw [List.map_cons, List.mem_cons]
      rcases ih h with h | h
      · unfold record at h
        split at h
        · rcases List.mem_append.mp h with h | h
          · exact Or.inl h
          · exact Or.inr (Or.inl (List.mem_singleton.mp h))
        · exact Or.inl h
      · exact Or.inr (Or.inr h)

theorem record_mono {caves : List E9CodeCave} (rs : List CodeRun) {cave : E9CodeCave} (h : cave ∈ caves) :
    cave ∈ rs.foldl (record C min) caves := by
  induction rs generalizing caves with
  | nil => exact h
  | cons r rs ih =>
      refine ih ?_
      unfold record
      split
      · exact List.mem_append_left _ h
      · exact h

/-- Exactly the large runs are recorded if each run is kept that is large, once those before it are. -/
theorem record_exact {caves : List E9CodeCave} {rs : List CodeRun} (hnodup : (rs.map CodeRun.cave).Nodup)
    (hfresh : ∀ cave ∈ caves, cave ∉ rs.map CodeRun.cave) :
    (∀ cave, cave ∈ rs.foldl (record C min) caves ↔ cave ∈ caves ∨ cave ∈ (large want rs).map CodeRun.cave) ↔
      ∀ pre r post, rs = pre ++ r :: post →
        (CaveKept C min (caves.length + (large want pre).length) r ↔ want ≤ r.cave.size) := by
  induction rs generalizing caves with
  | nil =>
      refine ⟨fun _ pre r post heq => absurd heq (by simp), fun _ cave => ?_⟩
      simp [large]
  | cons r rs ih =>
      rw [List.map_cons, List.nodup_cons] at hnodup
      have hnew : r.cave ∉ caves := fun hmem => hfresh _ hmem List.mem_cons_self
      have hlarge : ∀ cave, cave ∈ (large want (r :: rs)).map CodeRun.cave ↔
          want ≤ r.cave.size ∧ cave = r.cave ∨ cave ∈ (large want rs).map CodeRun.cave := by
        intro cave
        unfold large
        rw [List.filter_cons]
        by_cases hsize : want ≤ r.cave.size
        · simp [hsize]
        · simp [hsize]
      have hothers : r.cave ∉ (large want rs).map CodeRun.cave :=
        fun hmem => hnodup.1 ((List.filter_sublist.map _).subset hmem)
      have hnow : r.cave ∈ (r :: rs).foldl (record C min) caves ↔ CaveKept C min caves.length r := by
        rw [List.foldl_cons]
        constructor
        · intro hmem
          by_contra hkept
          rw [record, if_neg hkept] at hmem
          rcases mem_record hmem with hmem | hmem
          · exact hnew hmem
          · exact hnodup.1 hmem
        · intro hkept
          rw [record, if_pos hkept]
          exact record_mono rs (List.mem_append_right _ List.mem_cons_self)
      -- what follows once the first run is treated as it should be
      have hstep : (CaveKept C min caves.length r ↔ want ≤ r.cave.size) →
          ((∀ cave, cave ∈ (r :: rs).foldl (record C min) caves ↔
              cave ∈ caves ∨ cave ∈ (large want (r :: rs)).map CodeRun.cave) ↔
            ∀ pre r' post, rs = pre ++ r' :: post →
              (CaveKept C min (caves.length + (large want (r :: pre)).length) r' ↔ want ≤ r'.cave.size)) := by
        intro hright
        rw [List.foldl_cons]
        by_cases hsize : want ≤ r.cave.size
        · rw [record, if_pos (hright.mpr hsize)]
          have hfresh' : ∀ cave ∈ caves ++ [r.cave], cave ∉ rs.map CodeRun.cave := by
            intro cave hmem
            rcases List.mem_append.mp hmem with hmem | hmem
            · exact fun hin => hfresh cave hmem (List.mem_cons_of_mem _ hin)
            · rw [List.mem_singleton.mp hmem]
              exact hnodup.1
          have hlength : ∀ pre : List CodeRun, caves.length + (large want (r :: pre)).length =
              (caves ++ [r.cave]).length + (large want pre).length := by
            intro pre
            unfold large
            rw [List.filter_cons_of_pos (by simpa using hsize), List.length_append, List.length_cons]
            simp only [List.length_singleton]
            omega
          simp only [hlength]
          rw [← ih hnodup.2 hfresh']
          refine forall_congr' fun cave => ?_
          rw [hlarge, List.mem_append, List.mem_singleton, and_iff_right hsize, or_assoc]
        · rw [record, if_neg (fun hkept => hsize (hright.mp hkept))]
          have hlength : ∀ pre : List CodeRun, (large want (r :: pre)).length = (large want pre).length := by
            intro pre
            unfold large
            rw [List.filter_cons_of_neg (by simpa using hsize)]
          simp only [hlength]
          rw [← ih hnodup.2 fun cave hmem hin => hfresh cave hmem (List.mem_cons_of_mem _ hin)]
          refine forall_congr' fun cave => ?_
          rw [hlarge]
          simp [hsize]
      constructor
      · intro hexact
        have hright : CaveKept C min caves.length r ↔ want ≤ r.cave.size := by
          rw [← hnow, hexact, hlarge]
          simp [hnew, hothers]
        intro pre r' post heq
        cases pre with
        | nil =>
            cases heq
            exact hright
        | cons q pre =>
            cases heq
            exact (hstep hright).mp hexact pre r' post rfl
      · intro hall
        have hright := hall [] r rs rfl
        refine (hstep hright).mpr fun pre r' post heq => ?_
        exact hall (r :: pre) r' post (by rw [heq]; rfl)

/-- What is recorded is part of the list of runs. -/
theorem record_sublist (caves : List E9CodeCave) (rs : List CodeRun) :
    (rs.foldl (record C min) caves).Sublist (caves ++ rs.map CodeRun.cave) := by
  induction rs generalizing caves with
  | nil =>
      rw [List.map_nil, List.append_nil]
      exact List.Sublist.refl _
  | cons r rs ih =>
      rw [List.foldl_cons, List.map_cons]
      refine (ih _).trans ?_
      unfold record
      split
      · rw [List.append_assoc]
        exact List.Sublist.refl _
      · exact (List.Sublist.refl caves).append (List.sublist_cons_self _ _)

end

/-! ### The array of a session -/

/-- The array of the finder, if there is one, has room for some cave. -/
def HasArray (finder : Option E9CaveFinder) : Prop := ∀ f, finder = some f → 0 < f.caves_capacity

theorem findInSections_array {mem : CaveMemory} {secs : List SectionInfo} {s : Nat} {f f' : E9CaveFinder} {ok : Bool}
    (hf : 0 < f.caves_capacity) (h : findInSections d bin mem secs s f = .ok (ok, f')) : 0 < f'.caves_capacity := by
  have hreserve : ∀ {f f' : E9CaveFinder}, 0 < f.caves_capacity → f.reserve mem = some f' → 0 < f'.caves_capacity := by
    intro f f' hf hres
    unfold E9CaveFinder.reserve at hres
    split at hres
    · split at hres
      · cases hres
        simp only
        omega
      · cases hres
    · cases hres
      exact hf
  have hscan : ∀ {sec : SectionInfo} {off : Int} {s fuel i : Nat} {st st' : CaveScan} {ok : Bool},
      0 < st.finder.caves_capacity → scanSection d bin.arch mem sec off s fuel i st = .ok (ok, st') →
        0 < st'.finder.caves_capacity := by
    intro sec off s fuel
    induction fuel with
    | zero =>
        intro i st st' ok hst hscan
        cases hscan
        exact hst
    | succ fuel ih =>
        intro i st st' ok hst hscan
        unfold scanSection at hscan
        split at hscan
        · obtain ⟨n, -, hscan⟩ := of_bind hscan
          split at hscan
          · refine ih ?_ hscan
            unfold CaveScan.extend
            split <;> exact hst
          · cases hend : st.endRun mem sec off s with
            | none =>
                rw [hend] at hscan
                cases hscan
                exact hst
            | some st₁ =>
                rw [hend] at hscan
                refine ih ?_ hscan
                unfold CaveScan.endRun at hend
                split at hend
                · split at hend
                  · obtain ⟨f, hres, rfl⟩ := Option.map_eq_some_iff.mp hend
                    have hcap : 0 < f.caves_capacity := hreserve hst hres
                    exact hcap
                  · cases hend
                    exact hst
                · cases hend
                  exact hst
        · cases hscan
          exact hst
  induction secs generalizing s f with
  | nil =>
      cases h
      exact hf
  | cons sec secs ih =>
      unfold findInSections at h
      obtain ⟨⟨ok₁, f₁⟩, h₁, h⟩ := of_bind h
      have hf₁ : 0 < f₁.caves_capacity := by
        unfold findInSection at h₁
        split at h₁
        · cases h₁
          exact hf
        · simp only at h₁
          split at h₁
          · cases h₁
            exact hf
          · obtain ⟨⟨ok₂, st⟩, hst, h₁⟩ := of_bind h₁
            have hcap := hscan (by exact hf) hst
            cases h₁
            split
            · unfold CaveScan.finish
              split <;> exact hcap
            · exact hcap
      simp only at h
      split at h
      · exact ih hf₁ h
      · cases h
        exact hf₁

theorem HasArray.find {mem : CaveMemory} {finder finder' : Option E9CaveFinder} {min_size : Nat} {r : Int}
    (h : HasArray finder) (hfind : e9_caves_find d bin mem finder min_size = .ok (r, finder')) : HasArray finder' := by
  unfold e9_caves_find at hfind
  split at hfind
  · cases hfind
    exact nofun
  · rename_i f₀ hf₀
    obtain ⟨⟨ok, f⟩, hrun, hfind⟩ := of_bind hfind
    cases hfind
    have hpos : 0 < f₀.caves_capacity := by
      unfold caveFinder at hf₀
      split at hf₀
      · exact h _ hf₀
      · split at hf₀
        · cases hf₀
          exact Nat.succ_pos 63
        · cases hf₀
    intro f' hf'
    cases hf'
    exact findInSections_array (by exact hpos) hrun

theorem HasArray.alloc {finder : Option E9CaveFinder} (h : HasArray finder) (size : Nat) :
    HasArray (e9_caves_alloc finder size).2 := by
  cases finder with
  | none => exact nofun
  | some f =>
      rcases caves_alloc_cases f size with ⟨-, halloc⟩ | ⟨i, cave, hgives⟩
      · rw [halloc]
        exact h
      · rw [hgives.alloc]
        intro f' hf'
        cases hf'
        exact h f rfl

theorem HasArray.apply {mem : CaveMemory} {capacity : Nat} {ps : List E9BinPatch} {finder finder' : Option E9CaveFinder}
    {img img' : Nat → UInt8} {r : Int} (h : HasArray finder)
    (hrun : applyPatches d bin mem capacity ps finder img = .ok (r, finder', img')) : HasArray finder' := by
  induction ps generalizing finder img with
  | nil =>
      cases hrun
      exact h
  | cons p ps ih =>
      unfold applyPatches at hrun
      split at hrun
      · cases hrun
        exact h
      · obtain ⟨⟨c, finder₁⟩, hgive, hrun⟩ := of_bind hrun
        have h₁ : HasArray finder₁ := by
          unfold giveCave at hgive
          split at hgive
          · obtain ⟨finder₂, hfor, hgive⟩ := of_bind hgive
            have heq := Except.ok.inj hgive
            have h₂ : HasArray finder₂ := by
              unfold finderFor at hfor
              split at hfor
              · exact Except.ok.inj hfor ▸ h
              · obtain ⟨⟨r', found⟩, hfind, rfl⟩ := map_eq_ok hfor
                exact h.find hfind
            have halloc := h₂.alloc (p.hook_code.length + 32)
            rwa [heq] at halloc
          · cases hgive
            exact h
        simp only at hrun
        split at hrun
        · cases hrun
          exact h₁
        · split at hrun
          · exact ih h₁ hrun
          · cases hrun

theorem record_finder (s : E9BinPatchSession) (p : E9BinPatch) : (s.record p).2.cave_finder = s.cave_finder := by
  unfold E9BinPatchSession.record E9BinPatchSession.add_patch
  split
  · rfl
  · split
    · simp only
      split <;> rfl
    · rfl

theorem Recorded.array {s : E9BinPatchSession} (h : Recorded s) : HasArray s.cave_finder := by
  induction h with
  | create data bin => exact nofun
  | bytes _ _ new ih =>
      unfold E9BinPatchSession.e9_binpatch_bytes
      split
      · exact ih
      · exact (record_finder _ _).symm ▸ ih
  | nop _ _ size ih =>
      unfold E9BinPatchSession.e9_binpatch_nop
      split
      · exact ih
      · exact (record_finder _ _).symm ▸ ih
  | insn _ _ new ih =>
      unfold E9BinPatchSession.e9_binpatch_insn
      simp only
      split
      · exact ih
      · exact (record_finder _ _).symm ▸ ih
  | call _ _ _ ih => exact (record_finder _ _).symm ▸ ih
  | jmp _ _ _ ih => exact (record_finder _ _).symm ▸ ih
  | hook _ _ code ih =>
      unfold E9BinPatchSession.e9_binpatch_hook
      split
      · exact ih
      · exact (record_finder _ _).symm ▸ ih
  | detour _ _ code ih =>
      unfold E9BinPatchSession.e9_binpatch_detour
      split
      · exact ih
      · exact (record_finder _ _).symm ▸ ih
  | caves_find _ hfind ih => exact ih.find hfind
  | caves_alloc _ size ih => exact ih.alloc size
  | apply _ happly ih =>
      unfold e9_binpatch_apply at happly
      split at happly
      · cases happly
        exact ih
      · split at happly
        · cases happly
          exact ih
        · obtain ⟨⟨r', finder, output⟩, hrun, happly⟩ := of_bind happly
          cases happly
          exact ih.apply hrun
  | revert_all _ ih => exact ih

/-! ### Caves are found and handed out -/

/-- The size that is asked for; zero asks for the default. -/
def wantedSize (min_size : Nat) : Nat := if min_size > 0 then min_size else 8

/-- The caves of a finder are those that should be recorded, and allocations from them do not overlap. -/
structure CavesRight (d : Block) (bin : E9Binary) (want : Nat) (f : E9CaveFinder) : Prop where
  nodup : f.caves.Nodup
  exact : ∀ cave, cave ∈ f.caves ↔ MaximalCave d bin want cave
  apart : ∀ sizes, (granted f sizes).Pairwise Apart
  inside : ∀ sizes, ∀ g ∈ granted f sizes, ∃ c ∈ f.caves, ∀ x ∈ addresses g.1 g.2, x ∈ addresses c.address c.size

/-- Whatever memory there is, the search finds the caves, or fails for lack of memory. -/
def FindsCaves (s : E9BinPatchSession) (min_size : Nat) : Prop :=
  ∀ mem, ∃ r finder, e9_caves_find s.data s.bin mem s.cave_finder min_size = .ok (r, finder) ∧
    (r ≠ -1 → ∃ f, finder = some f ∧ CavesRight s.data s.bin (wantedSize min_size) f)

/-- The array starts with this many caves, and the finder looks for caves of this size. -/
def startCapacity (s : E9BinPatchSession) : Nat := s.cave_finder.elim 64 E9CaveFinder.caves_capacity

def startSize (s : E9BinPatchSession) (min_size : Nat) : Nat :=
  s.cave_finder.elim (wantedSize min_size) E9CaveFinder.min_cave_size

/-- A run that the end of its section ends, with the array full of the caves before it. -/
def MeetsFull (s : E9BinPatchSession) (want : Nat) (pre : List CodeRun) (r : CodeRun) : Prop :=
  r.at_end = true ∧ Full (startCapacity s) (large want pre).length

structure CavesInReach (s : E9BinPatchSession) (min_size : Nat) : Prop where
  sections : ∀ sec ∈ s.bin.sections, EndsInFile s.data s.bin sec
  ends : ∀ pre r post, codeRuns s.data s.bin s.bin.sections 0 = pre ++ r :: post →
    MeetsFull s (wantedSize min_size) pre r → r.cave.size < wantedSize min_size
  sizes : ∀ pre r post, codeRuns s.data s.bin s.bin.sections 0 = pre ++ r :: post →
    ¬MeetsFull s (wantedSize min_size) pre r →
      (startSize s min_size ≤ r.cave.size ↔ wantedSize min_size ≤ r.cave.size)
  apart : ∀ c c', MaximalCave s.data s.bin (wantedSize min_size) c →
    MaximalCave s.data s.bin (wantedSize min_size) c' → c ≠ c' → CavesApart c c'

theorem MaximalCave.bounds {want : Nat} {cave : E9CodeCave} (h : MaximalCave d bin want cave) :
    IsWord cave.address ∧ cave.size ≤ 2 ^ 64 := by
  obtain ⟨s, sec, -, -, hfile, start, len, hrun, -, rfl⟩ := h
  have hsize := d.size_lt
  have hoff := isWord_offset d bin sec.addr
  have hpos := hrun.pos
  have hle := hrun.le
  have hlast := lt_cellCount.mp (show len - 1 < cellCount bin.arch sec.size by omega)
  refine ⟨isWord_ptr _, ?_⟩
  unfold IsWord at hoff
  simp only [codeRun]
  rcases cellWidth_cases bin.arch with ⟨hw, -⟩ | ⟨hw, -⟩ <;> rw [hw] at hlast ⊢ <;> omega

instance : Std.Symm CavesApart := ⟨fun _ _ h x hx hmem => h x hx ⟨hmem.2, hmem.1⟩⟩

/-- The caves found by a search that gets through. -/
theorem cavesRight_iff {s : E9BinPatchSession} {min_size : Nat} {f : E9CaveFinder}
    (hcaves : f.caves = (codeRuns s.data s.bin s.bin.sections 0).foldl
      (record (startCapacity s) (startSize s min_size)) []) :
    CavesRight s.data s.bin (wantedSize min_size) f ↔
      (∀ pre r post, codeRuns s.data s.bin s.bin.sections 0 = pre ++ r :: post →
        (CaveKept (startCapacity s) (startSize s min_size) (large (wantedSize min_size) pre).length r ↔
          wantedSize min_size ≤ r.cave.size)) ∧
      ∀ c c', MaximalCave s.data s.bin (wantedSize min_size) c →
        MaximalCave s.data s.bin (wantedSize min_size) c' → c ≠ c' → CavesApart c c' := by
  have hexact := @record_exact (startCapacity s) (startSize s min_size) (wantedSize min_size) []
    (codeRuns s.data s.bin s.bin.sections 0) codeRuns_nodup (List.forall_mem_nil _)
  simp only [List.not_mem_nil, false_or, List.length_nil, Nat.zero_add, mem_large, ← hcaves] at hexact
  have hnodup : f.caves.Nodup := by
    have hsub := @record_sublist (startCapacity s) (startSize s min_size) [] (codeRuns s.data s.bin s.bin.sections 0)
    rw [← hcaves, List.nil_append] at hsub
    exact hsub.nodup codeRuns_nodup
  have hgranted : (∀ cave, cave ∈ f.caves ↔ MaximalCave s.data s.bin (wantedSize min_size) cave) →
      ((∀ sizes, (granted f sizes).Pairwise Apart) ↔ f.caves.Pairwise CavesApart) := fun hmem =>
    granted_apart_iff (fun c hc => ((hmem c).mp hc).bounds.1) fun c hc => ((hmem c).mp hc).bounds.2
  rw [← hexact]
  constructor
  · intro h
    refine ⟨h.exact, fun c c' hc hc' hne => ?_⟩
    exact ((hgranted h.exact).mp h.apart).forall ((h.exact c).mpr hc) ((h.exact c').mpr hc') hne
  · rintro ⟨hmem, hapart⟩
    refine ⟨hnodup, hmem, (hgranted hmem).mpr ?_, fun sizes g hg => ?_⟩
    · exact List.Pairwise.imp_of_mem (fun hc hc' hne => hapart _ _ ((hmem _).mp hc) ((hmem _).mp hc') hne) hnodup
    · rw [granted_eq] at hg
      exact handed_inside (List.mem_of_mem_filter hg)

/-- The search and the allocations do what they should exactly if no cave is out of reach. -/
theorem caves_found_iff {s : E9BinPatchSession} (hs : Recorded s) (min_size : Nat) :
    FindsCaves s min_size ↔ CavesInReach s min_size := by
  have hstart : ∀ mem f, caveFinder mem s.cave_finder min_size = some f →
      Grown (startCapacity s) { f with caves := [] } ∧ f.min_cave_size = startSize s min_size := by
    intro mem f hf
    have harray := hs.array
    unfold caveFinder at hf
    unfold startCapacity startSize
    cases hfinder : s.cave_finder with
    | none =>
        rw [hfinder] at hf
        simp only at hf
        split at hf
        · cases hf
          exact ⟨⟨by decide, 0, rfl, Nat.zero_le _, nofun⟩, rfl⟩
        · cases hf
    | some f₀ =>
        rw [hfinder] at hf
        cases hf
        refine ⟨⟨harray f hfinder, 0, ?_, Nat.zero_le _, nofun⟩, rfl⟩
        simp only [Option.elim_some, Nat.pow_zero, Nat.mul_one]
  have hkept : ∀ pre r, (CaveKept (startCapacity s) (startSize s min_size) (large (wantedSize min_size) pre).length r ↔
      wantedSize min_size ≤ r.cave.size) ↔
      (MeetsFull s (wantedSize min_size) pre r → r.cave.size < wantedSize min_size) ∧
        (¬MeetsFull s (wantedSize min_size) pre r →
          (startSize s min_size ≤ r.cave.size ↔ wantedSize min_size ≤ r.cave.size)) := by
    intro pre r
    unfold CaveKept MeetsFull
    by_cases hfull : r.at_end = true ∧ Full (startCapacity s) (large (wantedSize min_size) pre).length
    · simp [hfull]
    · simp [hfull]
  constructor
  · intro h
    obtain ⟨r, finder, hfind, hright⟩ := h ⟨true, fun _ => true⟩
    unfold e9_caves_find at hfind
    split at hfind
    · rename_i hnone
      unfold caveFinder at hnone
      split at hnone <;> cases hnone
    · rename_i f₀ hf₀
      obtain ⟨hgrown, hmin⟩ := hstart _ f₀ hf₀
      obtain ⟨⟨ok, f⟩, hrun, hfind⟩ := of_bind hfind
      have hok := findInSections_grows (fun _ => rfl) hrun
      subst hok
      simp only [if_true, Except.ok.injEq, Prod.mk.injEq] at hfind
      obtain ⟨rfl, rfl⟩ := hfind
      obtain ⟨hcaves, hends⟩ := findInSections_spec hgrown hrun
      obtain ⟨f', hf', hright⟩ := hright (by omega)
      cases hf'
      simp only at hcaves
      rw [hmin] at hcaves
      obtain ⟨hall, hapart⟩ := (cavesRight_iff hcaves).mp hright
      exact ⟨hends, fun pre r post heq => ((hkept pre r).mp (hall pre r post heq)).1,
        fun pre r post heq => ((hkept pre r).mp (hall pre r post heq)).2, hapart⟩
  · intro h mem
    unfold e9_caves_find
    split
    · exact ⟨-1, none, rfl, fun hne => absurd rfl hne⟩
    · rename_i f₀ hf₀
      obtain ⟨hgrown, hmin⟩ := hstart _ f₀ hf₀
      obtain ⟨ok, f, hrun⟩ := findInSections_total mem 0 { f₀ with caves := [] } h.sections
      rw [hrun, ok_bind]
      refine ⟨_, _, rfl, fun hne => ⟨f, rfl, ?_⟩⟩
      cases ok with
      | false => exact absurd rfl hne
      | true =>
          obtain ⟨hcaves, -⟩ := findInSections_spec hgrown hrun
          simp only at hcaves
          rw [hmin] at hcaves
          refine (cavesRight_iff hcaves).mpr ⟨fun pre r post heq => (hkept pre r).mpr ?_, h.apart⟩
          exact ⟨h.ends pre r post heq, h.sizes pre r post heq⟩

/-- A section with 64 caves of one byte, and one more at its end. -/
def sledFile : Block := ⟨(List.replicate 64 [0x90, 0xc3]).flatten ++ [0x90], by decide⟩

def sledBinary : E9Binary :=
  { E9Binary.zero with arch := .X86_64, base_address := 0x1000, sections := [⟨0x1000, 129, 4, []⟩] }

/-- A search for caves of two bytes. -/
theorem sled_found_iff : FindsCaves (e9_binpatch_session_create sledFile sledBinary) 2 ↔
    CavesInReach (e9_binpatch_session_create sledFile sledBinary) 2 :=
  caves_found_iff (Recorded.create sledFile sledBinary) 2

/-- The addresses that a search finds, with enough memory. -/
def foundAt (s : E9BinPatchSession) (min_size : Nat) : Option (Int × List Int) :=
  match e9_caves_find s.data s.bin ⟨true, fun _ => true⟩ s.cave_finder min_size with
  | .ok (r, some f) => some (r, f.caves.map E9CodeCave.address)
  | _ => none

/-- The 65th cave is missing. -/
theorem last_cave_missed : ¬∀ s min_size, Recorded s → FindsCaves s min_size := by
  intro h
  obtain ⟨r, finder, hfind, hright⟩ :=
    h (e9_binpatch_session_create sledFile sledBinary) 1 (Recorded.create sledFile sledBinary) ⟨true, fun _ => true⟩
  have hfound : (foundAt (e9_binpatch_session_create sledFile sledBinary) 1).any
      (fun g => decide (g.1 = 64 ∧ 0x1080 ∉ g.2)) = true := by decide
  unfold foundAt at hfound
  rw [hfind] at hfound
  cases finder with
  | none => cases hfound
  | some f =>
      simp only [Option.any_some, decide_eq_true_eq] at hfound
      obtain ⟨f', hf', hf⟩ := hright (by omega)
      cases hf'
      have hlast : MaximalCave sledFile sledBinary 1 ⟨0x1080, 128, 1, false, 0⟩ :=
        ⟨0, ⟨0x1000, 129, 4, []⟩, rfl, by decide, by decide, 128, 1,
          ⟨by decide, by decide, by decide, by decide, by decide⟩, by decide,
          by decide⟩
      exact hfound.2 (List.mem_map_of_mem ((hf.exact _).mpr hlast))

end E9Patch
