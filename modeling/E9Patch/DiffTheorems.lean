import E9Patch.AnalysisBounds
import E9Patch.DiscoveryTheorems
import E9Patch.ObjectDiff
import E9Patch.RangeDiff

/-!
The diff of two objects and what its patches make of the old one. For each pair of functions of one name the patches
are the maximal runs of bytes that differ, up to the smaller of the two sizes, and the limit on the patches is looked
at between functions only.
-/

namespace E9Patch
open Reader Overlay Numerals MaximalRuns RangeDiff

/-- The bytes of an object by their offsets. -/
def bytesOf (d : Block) (x : Nat) : UInt8 := d.get x

/-! ### One pair of functions -/

section
variable (old_obj new_obj : Block)

/-- The ranges that are compared are in the images. -/
def InImages (r : Range) : Prop := 0 < r.size → r.old + r.size ≤ old_obj.size ∧ r.new + r.size ≤ new_obj.size

/-- The patch for a run of bytes that differ. -/
def changePatch (old_func new_func : E9Function) (r : Range) (change : Nat × Nat) : ObjectPatch :=
  ⟨addrPlus old_func.address change.1, change.2, old_obj.slice (r.old + change.1) change.2,
    new_obj.slice (r.new + change.1) change.2, patchDescription new_func change.1 change.2⟩

/-- The bytes that a range gives to the runs. -/
def byteDiffers (r : Range) : Nat → Bool := r.differs (bytesOf old_obj) (bytesOf new_obj)

def byteChanges (r : Range) : List (Nat × Nat) := r.changes (bytesOf old_obj) (bytesOf new_obj)

variable {old_obj new_obj} {r : Range} {i : Nat}

theorem ptr_of_has {d : Block} {off i n : Nat} (h : off + n ≤ d.size) (hi : i < n) :
    ptr (off + i) = off + i ∧ d.Has (off + i) 1 := by
  have hsize := d.size_lt
  unfold ptr Block.Has
  exact ⟨by omega, by omega, by omega⟩

theorem differAt_ok (hin : InImages old_obj new_obj r) (hi : i < r.size) :
    differAt old_obj new_obj r.old r.new i = .ok (byteDiffers old_obj new_obj r i) := by
  obtain ⟨hold, hnew⟩ := hin (Nat.zero_lt_of_lt hi)
  obtain ⟨hptr, hhas⟩ := ptr_of_has hold hi
  obtain ⟨hptr', hhas'⟩ := ptr_of_has hnew hi
  unfold differAt
  rw [hptr, hptr', read_ok hhas, ok_bind, read_ok hhas', ok_bind]
  apply congrArg Except.ok
  apply decide_eq_decide.mpr
  simp [bytesOf, Block.word, UInt8.toNat_inj]

theorem patchExtent_ok (hin : InImages old_obj new_obj r) {fuel k : Nat} (hk : i + k ≤ r.size)
    (hfuel : r.size < fuel + (i + k)) :
    ∃ m, patchExtent old_obj new_obj r.old r.new r.size i fuel k = .ok m ∧ k ≤ m ∧ i + m ≤ r.size ∧
      (∀ j, k ≤ j → j < m → byteDiffers old_obj new_obj r (i + j) = true) ∧
      (i + m < r.size → byteDiffers old_obj new_obj r (i + m) = false) := by
  induction fuel generalizing k with
  | zero => omega
  | succ fuel ih =>
      unfold patchExtent
      by_cases hlt : i + k < r.size
      · rw [if_pos hlt, differAt_ok hin hlt, ok_bind]
        by_cases hdiffers : byteDiffers old_obj new_obj r (i + k) = true
        · obtain ⟨m, hm, hle, hsize, hall, hstop⟩ := ih (k := k + 1) (by omega) (by omega)
          rw [if_pos hdiffers]
          refine ⟨m, hm, by omega, hsize, fun j hj hjm => ?_, hstop⟩
          rcases Nat.eq_or_lt_of_le hj with rfl | hj
          · exact hdiffers
          · exact hall j hj hjm
        · rw [if_neg hdiffers]
          exact ⟨k, rfl, Nat.le_refl k, hk, fun j hj hjk => by omega, fun _ => by simpa using hdiffers⟩
      · rw [if_neg hlt]
        exact ⟨k, rfl, Nat.le_refl k, hk, fun j hj hjk => by omega, fun h => absurd h hlt⟩

theorem copy_of_has {d : Block} {off n : Nat} {i k : Nat} (h : off + n ≤ d.size) (hk : 0 < k) (hik : i + k ≤ n) :
    copy d (ptr (off + i)) k = .ok (d.slice (off + i) k) := by
  obtain ⟨hptr, -⟩ := ptr_of_has h (i := i) (by omega)
  rw [hptr]
  apply copy_ok
  unfold Block.Has
  exact ⟨by omega, by omega⟩

variable {old_func new_func : E9Function} {acc : List ObjectPatch}

/-- What the comparison does from byte `i` on, where no run is open or one has just ended: it stores the runs of the
rest behind those before, if there is room for all. -/
theorem diffBytes_eq (hin : InImages old_obj new_obj r) {fuel : Nat} (hi : i ≤ r.size) (hfuel : r.size < fuel + i)
    (hstop : openRun (byteDiffers old_obj new_obj r) i = 0 ∨
      (i < r.size → byteDiffers old_obj new_obj r i = false))
    (hroom : acc.length + (runs (byteDiffers old_obj new_obj r) i).length ≤ MAX_DIFF_PATCHES) :
    diffBytes old_obj new_obj r.old r.new r.size old_func new_func fuel i
        (acc ++ (runs (byteDiffers old_obj new_obj r) i).map (changePatch old_obj new_obj old_func new_func r)) =
      if acc.length + (byteChanges old_obj new_obj r).length ≤ MAX_DIFF_PATCHES then
        .ok (acc ++ (byteChanges old_obj new_obj r).map (changePatch old_obj new_obj old_func new_func r))
      else .error .outOfBounds := by
  induction fuel generalizing i with
  | zero => omega
  | succ fuel ih =>
      unfold diffBytes
      by_cases hlt : i < r.size
      · rw [if_pos hlt, differAt_ok hin hlt, ok_bind]
        by_cases hdiffers : byteDiffers old_obj new_obj r i = true
        · have hopen := hstop.resolve_right fun hno => by
            rw [hno hlt] at hdiffers
            cases hdiffers
          obtain ⟨m, hm, hpos, hsize, hall, hbehind⟩ :=
            @patchExtent_ok old_obj new_obj r i hin r.size 1 hlt (by omega)
          have hrun : ∀ j < m, byteDiffers old_obj new_obj r (i + j) = true := by
            intro j hj
            rcases Nat.eq_zero_or_pos j with rfl | hj0
            · exact hdiffers
            · exact hall j hj0 hj
          have hruns := runs_add hpos hopen hrun
          have hmono := runs_length_mono (p := byteDiffers old_obj new_obj r) hsize
          obtain ⟨hold, hnew⟩ := hin (Nat.zero_lt_of_lt hlt)
          rw [if_pos hdiffers]
          unfold addPatch
          rw [List.length_append, List.length_map]
          by_cases hfull : acc.length + (runs (byteDiffers old_obj new_obj r) i).length < MAX_DIFF_PATCHES
          · rw [if_pos hfull, hm, ok_bind, copy_of_has hold hpos hsize, ok_bind, copy_of_has hnew hpos hsize, ok_bind,
              ok_bind]
            have hnext := ih (i := i + m) hsize (by omega) (.inr hbehind) (by
              rw [hruns, List.length_append, List.length_singleton]
              omega)
            rw [hruns, List.map_append, ← List.append_assoc] at hnext
            exact hnext
          · rw [if_neg hfull, if_neg]
            · rfl
            · rw [hruns, List.length_append, List.length_singleton] at hmono
              unfold byteChanges Range.changes
              unfold byteDiffers at hfull hmono
              omega
        · have hno : byteDiffers old_obj new_obj r i = false := by simpa using hdiffers
          have hruns := runs_succ_of_not hno
          have hnext := ih (i := i + 1) hlt (by omega) (.inl (by simp [openRun, hno])) (by rwa [hruns])
          rw [hruns] at hnext
          rw [if_neg hdiffers]
          exact hnext
      · have hend : i = r.size := by omega
        subst hend
        exact (if_neg hlt).trans (if_pos hroom).symm

/-! ### Reads -/

/-- The bytes that the comparison reads at index `j`. -/
def ReadsAt (old_obj new_obj : Block) (r : Range) (j : Nat) : Prop :=
  old_obj.Has (ptr (r.old + j)) 1 ∧ new_obj.Has (ptr (r.new + j)) 1

theorem reads_of_differAt {b : Bool} (h : differAt old_obj new_obj r.old r.new i = .ok b) :
    ReadsAt old_obj new_obj r i := by
  unfold differAt at h
  have hold := safe_read_bind.mp ⟨b, h⟩
  exact ⟨hold.1, (safe_read_bind.mp hold.2).1⟩

theorem reads_of_patchExtent {fuel k m : Nat} (h : patchExtent old_obj new_obj r.old r.new r.size i fuel k = .ok m) :
    k ≤ m ∧ ∀ j, k ≤ j → j < m → ReadsAt old_obj new_obj r (i + j) := by
  induction fuel generalizing k with
  | zero => cases h
  | succ fuel ih =>
      have hdone : ∀ {k' : Nat}, (.ok k : Except Fault Nat) = .ok k' →
          k ≤ k' ∧ ∀ j, k ≤ j → j < k' → ReadsAt old_obj new_obj r (i + j) := by
        rintro k' ⟨⟩
        exact ⟨Nat.le_refl k, fun j hj hlt => absurd hlt (by omega)⟩
      unfold patchExtent at h
      split at h
      · obtain ⟨differ, hdiffer, h⟩ := of_bind h
        split at h
        · obtain ⟨hle, hreads⟩ := ih h
          refine ⟨by omega, fun j hj hlt => ?_⟩
          rcases Nat.eq_or_lt_of_le hj with rfl | hj
          · exact reads_of_differAt hdiffer
          · exact hreads j hj hlt
        · exact hdone h
      · exact hdone h

/-- A comparison that comes to its end has read all bytes. -/
theorem reads_of_diffBytes {fuel : Nat} {patches out : List ObjectPatch}
    (h : diffBytes old_obj new_obj r.old r.new r.size old_func new_func fuel i patches = .ok out) :
    ∀ j, i ≤ j → j < r.size → ReadsAt old_obj new_obj r j := by
  induction fuel generalizing i patches with
  | zero => cases h
  | succ fuel ih =>
      intro j hj hlt
      unfold diffBytes at h
      rw [if_pos (by omega)] at h
      obtain ⟨differ, hdiffer, h⟩ := of_bind h
      rcases Nat.eq_or_lt_of_le hj with rfl | hj
      · exact reads_of_differAt hdiffer
      split at h
      · obtain ⟨⟨m, patches'⟩, hadd, h⟩ := of_bind h
        unfold addPatch at hadd
        split at hadd
        · obtain ⟨m', hm, hadd⟩ := of_bind hadd
          obtain ⟨_, -, hadd⟩ := of_bind hadd
          obtain ⟨_, -, hadd⟩ := of_bind hadd
          cases hadd
          obtain ⟨hle, hreads⟩ := reads_of_patchExtent hm
          by_cases hin : j < i + m
          · have hread := hreads (j - i) (by omega) (by omega)
            rwa [Nat.add_sub_cancel' (Nat.le_of_lt hj)] at hread
          · exact ih h j (by omega) hlt
        · cases hadd
      · exact ih h j hj hlt

/-- Pointers do not wrap around inside an image. -/
theorem end_le_of_has {d : Block} {off n : Nat} (hoff : off < 2 ^ 64) (hn : 0 < n)
    (h : ∀ j < n, d.Has (ptr (off + j : Int)) 1) : off + n ≤ d.size := by
  have hsize := d.size_lt
  induction n with
  | zero => exact absurd hn (Nat.lt_irrefl 0)
  | succ n ih =>
      have hlast := h n (Nat.lt_succ_self n)
      unfold Block.Has ptr at hlast
      rcases Nat.eq_zero_or_pos n with rfl | hpos
      · omega
      · have hbefore := ih hpos fun j hj => h j (Nat.lt_succ_of_lt hj)
        omega

theorem diffBytes_iff (hold : r.old < 2 ^ 64) (hnew : r.new < 2 ^ 64) (hroom : acc.length ≤ MAX_DIFF_PATCHES)
    {out : List ObjectPatch} :
    diffBytes old_obj new_obj r.old r.new r.size old_func new_func (r.size + 1) 0 acc = .ok out ↔
      InImages old_obj new_obj r ∧ acc.length + (byteChanges old_obj new_obj r).length ≤ MAX_DIFF_PATCHES ∧
      out = acc ++ (byteChanges old_obj new_obj r).map (changePatch old_obj new_obj old_func new_func r) := by
  have heq := fun hin => @diffBytes_eq old_obj new_obj r 0 old_func new_func acc hin (r.size + 1) (Nat.zero_le r.size)
    (Nat.lt_succ_self r.size) (.inl rfl) hroom
  constructor
  · intro h
    have hreads := reads_of_diffBytes h
    have hin : InImages old_obj new_obj r := fun hpos =>
      ⟨end_le_of_has hold hpos fun j hj => (hreads j (Nat.zero_le j) hj).1,
        end_le_of_has hnew hpos fun j hj => (hreads j (Nat.zero_le j) hj).2⟩
    have hrun := heq hin
    rw [show (runs (byteDiffers old_obj new_obj r) 0).map (changePatch old_obj new_obj old_func new_func r) = [] from rfl,
      List.append_nil, h] at hrun
    split at hrun
    · exact ⟨hin, ‹_›, Except.ok.inj hrun⟩
    · cases hrun
  · rintro ⟨hin, hfits, rfl⟩
    have hrun := heq hin
    rw [if_pos hfits] at hrun
    rw [← hrun]
    congr 1
    exact (List.append_nil acc).symm

end

/-! ### All pairs -/

/-- The functions of the new image whose names the old one has, each behind the old function. -/
def functionPairs (old_functions new_functions : List E9Function) : List (E9Function × E9Function) :=
  new_functions.filterMap fun new_func =>
    (e9_function_by_name old_functions new_func.name).map fun old_func => (old_func, new_func)

section
variable (old_obj new_obj : Block) (old_bin new_bin : E9Binary)

/-- What is compared of two functions. -/
def pairRange (p : E9Function × E9Function) : Range :=
  ⟨imageOffset old_bin p.1.address, imageOffset new_bin p.2.address, min p.1.size p.2.size⟩

/-- The number of runs of bytes that differ. -/
def pairChanges (p : E9Function × E9Function) : Nat := (byteChanges old_obj new_obj (pairRange old_bin new_bin p)).length

def pairPatches (p : E9Function × E9Function) : List ObjectPatch :=
  (byteChanges old_obj new_obj (pairRange old_bin new_bin p)).map
    (changePatch old_obj new_obj p.1 p.2 (pairRange old_bin new_bin p))

/-- The pairs before which there are fewer runs than patches fit; `n` are there before the first. -/
def reachedPairs : Nat → List (E9Function × E9Function) → List (E9Function × E9Function)
  | _, [] => []
  | n, p :: pairs =>
    if n < MAX_DIFF_PATCHES then p :: reachedPairs (n + pairChanges old_obj new_obj old_bin new_bin p) pairs else []

variable {old_obj new_obj old_bin new_bin} {old_functions new_functions : List E9Function}

theorem reachedPairs_full {n : Nat} (h : ¬n < MAX_DIFF_PATCHES) (pairs : List (E9Function × E9Function)) :
    reachedPairs old_obj new_obj old_bin new_bin n pairs = [] := by
  cases pairs with
  | nil => rfl
  | cons p pairs => exact if_neg h

theorem reachedPairs_sub {n : Nat} {pairs : List (E9Function × E9Function)} :
    ∀ p ∈ reachedPairs old_obj new_obj old_bin new_bin n pairs, p ∈ pairs := by
  induction pairs generalizing n with
  | nil => exact fun p hp => hp
  | cons q pairs ih =>
      intro p hp
      unfold reachedPairs at hp
      split at hp
      · rcases List.mem_cons.mp hp with rfl | hp
        · exact List.mem_cons_self
        · exact List.mem_cons_of_mem _ (ih p hp)
      · cases hp

theorem imageOffset_lt (bin : E9Binary) (addr : Nat) : imageOffset bin addr < 2 ^ 64 := addrPlus_lt addr _

theorem diffFunction_iff {old_func new_func : E9Function} {acc out : List ObjectPatch}
    (hroom : acc.length ≤ MAX_DIFF_PATCHES) :
    diffFunction old_obj new_obj old_bin new_bin old_func new_func acc = .ok out ↔
      InImages old_obj new_obj (pairRange old_bin new_bin (old_func, new_func)) ∧
      acc.length + pairChanges old_obj new_obj old_bin new_bin (old_func, new_func) ≤ MAX_DIFF_PATCHES ∧
      out = acc ++ pairPatches old_obj new_obj old_bin new_bin (old_func, new_func) :=
  diffBytes_iff (r := pairRange old_bin new_bin (old_func, new_func)) (imageOffset_lt _ _) (imageOffset_lt _ _) hroom

theorem functionPairs_cons {new_func : E9Function} : functionPairs old_functions (new_func :: new_functions) =
    match e9_function_by_name old_functions new_func.name with
    | none => functionPairs old_functions new_functions
    | some old_func => (old_func, new_func) :: functionPairs old_functions new_functions := by
  unfold functionPairs
  cases hname : e9_function_by_name old_functions new_func.name with
  | none => exact List.filterMap_cons_none (by rw [hname]; rfl)
  | some old_func => exact List.filterMap_cons_some (by rw [hname]; rfl)

/-- The comparison of all functions: it comes to its end where the pairs that it reaches are in the images and there is
room for their patches, which it then stores. -/
theorem diffFunctions_iff {acc out : List ObjectPatch} (hroom : acc.length ≤ MAX_DIFF_PATCHES) :
    diffFunctions old_obj new_obj old_bin new_bin old_functions new_functions acc = .ok out ↔
      (∀ p ∈ reachedPairs old_obj new_obj old_bin new_bin acc.length (functionPairs old_functions new_functions),
        InImages old_obj new_obj (pairRange old_bin new_bin p)) ∧
      acc.length + ((reachedPairs old_obj new_obj old_bin new_bin acc.length (functionPairs old_functions
        new_functions)).map (pairChanges old_obj new_obj old_bin new_bin)).sum ≤ MAX_DIFF_PATCHES ∧
      out = acc ++ (reachedPairs old_obj new_obj old_bin new_bin acc.length (functionPairs old_functions
        new_functions)).flatMap (pairPatches old_obj new_obj old_bin new_bin) := by
  induction new_functions generalizing acc with
  | nil =>
      have hpairs : functionPairs old_functions [] = [] := rfl
      simp only [diffFunctions, hpairs, reachedPairs, List.map_nil, List.sum_nil, List.flatMap_nil, List.append_nil,
        Nat.add_zero, Except.ok.injEq]
      exact ⟨fun h => ⟨fun p hp => absurd hp List.not_mem_nil, hroom, h.symm⟩, fun h => h.2.2.symm⟩
  | cons new_func new_functions ih =>
      rw [functionPairs_cons]
      unfold diffFunctions
      by_cases hlimit : acc.length < MAX_DIFF_PATCHES
      · rw [if_pos hlimit]
        cases hname : e9_function_by_name old_functions new_func.name with
        | none => exact ih hroom
        | some old_func =>
            dsimp only
            have hreached : reachedPairs old_obj new_obj old_bin new_bin acc.length
                ((old_func, new_func) :: functionPairs old_functions new_functions) =
              (old_func, new_func) :: reachedPairs old_obj new_obj old_bin new_bin
                (acc.length + pairChanges old_obj new_obj old_bin new_bin (old_func, new_func))
                (functionPairs old_functions new_functions) := if_pos hlimit
            have hlength : (acc ++ pairPatches old_obj new_obj old_bin new_bin (old_func, new_func)).length =
                acc.length + pairChanges old_obj new_obj old_bin new_bin (old_func, new_func) := by
              rw [List.length_append, pairPatches, List.length_map]
              rfl
            rw [hreached, List.map_cons, List.sum_cons, List.flatMap_cons, ← List.append_assoc, ← Nat.add_assoc,
              List.forall_mem_cons]
            constructor
            · intro h
              obtain ⟨acc', hacc', h⟩ := of_bind h
              obtain ⟨hin, hfits, rfl⟩ := (diffFunction_iff hroom).mp hacc'
              have hrest := (ih (by rw [hlength]; exact hfits)).mp h
              rw [hlength] at hrest
              exact ⟨⟨hin, hrest.1⟩, hrest.2⟩
            · rintro ⟨⟨hin, hrest⟩, hfits, rfl⟩
              rw [(diffFunction_iff hroom).mpr ⟨hin, by omega, rfl⟩, ok_bind]
              apply (ih (by rw [hlength]; omega)).mpr
              rw [hlength]
              exact ⟨hrest, hfits, rfl⟩
      · rw [if_neg hlimit, reachedPairs_full hlimit, Except.ok.injEq]
        simp only [List.map_nil, List.sum_nil, List.flatMap_nil, List.append_nil, Nat.add_zero]
        exact ⟨fun h => ⟨fun p hp => absurd hp List.not_mem_nil, hroom, h.symm⟩, fun h => h.2.2.symm⟩

/-! ### The application -/

/-- What a patch writes. -/
def patchWrite (bin : E9Binary) (patch : ObjectPatch) : Write UInt8 :=
  ⟨imageOffset bin patch.address, patch.new_bytes.take patch.size⟩

theorem apply_pending_patches_eq {bin : E9Binary} {size : Nat} (hsize : size < 2 ^ 63) {patches : List ObjectPatch}
    (hin : ∀ patch ∈ patches, imageOffset bin patch.address + patch.size ≤ size) (applied : Nat) (data : Nat → UInt8) :
    e9studio_apply_pending_patches bin size patches applied data =
      .ok (applied + patches.length, overlay data (patches.map (patchWrite bin))) := by
  induction patches generalizing applied data with
  | nil => rfl
  | cons patch patches ih =>
      have hfirst := hin patch List.mem_cons_self
      unfold e9studio_apply_pending_patches
      dsimp only
      rw [if_neg (by omega), if_neg (by omega), ih fun q hq => hin q (List.mem_cons_of_mem _ hq), List.length_cons]
      rw [Nat.add_assoc, Nat.add_comm 1]
      rfl

theorem imageOffset_add {bin : E9Binary} {addr i : Nat} (h : imageOffset bin addr + i < 2 ^ 64) :
    imageOffset bin (addrPlus addr i) = imageOffset bin addr + i := by
  unfold imageOffset addrPlus at h ⊢
  split <;> omega

theorem slice_bytesOf (d : Block) (off n : Nat) : slice (bytesOf d) off n = d.slice off n := by
  simp [slice, Block.slice, bytesOf, ← List.map_eq_flatMap]

/-- The patches of a pair write its runs. -/
theorem pairPatches_writes {p : E9Function × E9Function}
    (hin : InImages old_obj new_obj (pairRange old_bin new_bin p)) :
    (∀ patch ∈ pairPatches old_obj new_obj old_bin new_bin p,
      imageOffset old_bin patch.address + patch.size ≤ old_obj.size) ∧
    (pairPatches old_obj new_obj old_bin new_bin p).map (patchWrite old_bin) =
      (pairRange old_bin new_bin p).writes (bytesOf old_obj) (bytesOf new_obj) := by
  have hsize := old_obj.size_lt
  have hplace : ∀ change ∈ byteChanges old_obj new_obj (pairRange old_bin new_bin p),
      imageOffset old_bin (addrPlus p.1.address change.1) = imageOffset old_bin p.1.address + change.1 ∧
      imageOffset old_bin p.1.address + change.1 + change.2 ≤ old_obj.size := by
    rintro ⟨start, len⟩ hchange
    have hrun := mem_runs.mp hchange
    have hpos := hrun.pos
    have hle := hrun.le
    obtain ⟨hold, -⟩ := hin (by omega)
    have hoff : (pairRange old_bin new_bin p).old = imageOffset old_bin p.1.address := rfl
    simp only
    exact ⟨imageOffset_add (by omega), by omega⟩
  constructor
  · intro patch hpatch
    obtain ⟨change, hchange, rfl⟩ := List.mem_map.mp hpatch
    obtain ⟨hoffset, hle⟩ := hplace change hchange
    simp only [changePatch]
    rwa [hoffset]
  · unfold pairPatches Range.writes
    rw [List.map_map]
    apply List.map_congr_left
    intro change hchange
    obtain ⟨hoffset, -⟩ := hplace change hchange
    simp only [Function.comp_apply, patchWrite, changePatch, Range.write]
    rw [hoffset, slice_bytesOf, List.take_of_length_le (by simp [Block.slice])]
    rfl

/-- The patches of pairs whose ranges are in the images, applied to the old one. -/
theorem apply_pairPatches {pairs : List (E9Function × E9Function)}
    (hin : ∀ p ∈ pairs, InImages old_obj new_obj (pairRange old_bin new_bin p)) :
    ∃ applied, e9studio_apply_pending_patches old_bin old_obj.size
        (pairs.flatMap (pairPatches old_obj new_obj old_bin new_bin)) 0 (bytesOf old_obj) =
      .ok (applied, overlay (bytesOf old_obj)
        ((pairs.map (pairRange old_bin new_bin)).flatMap (Range.writes (bytesOf old_obj) (bytesOf new_obj)))) := by
  have hplaces : ∀ patch ∈ pairs.flatMap (pairPatches old_obj new_obj old_bin new_bin),
      imageOffset old_bin patch.address + patch.size ≤ old_obj.size := by
    intro patch hpatch
    obtain ⟨p, hp, hpatch⟩ := List.mem_flatMap.mp hpatch
    exact (pairPatches_writes (hin p hp)).1 patch hpatch
  have hwrites : (pairs.flatMap (pairPatches old_obj new_obj old_bin new_bin)).map (patchWrite old_bin) =
      (pairs.map (pairRange old_bin new_bin)).flatMap (Range.writes (bytesOf old_obj) (bytesOf new_obj)) := by
    rw [List.map_flatMap, List.flatMap_map]
    apply List.flatMap_congr
    exact fun p hp => (pairPatches_writes (hin p hp)).2
  rw [← hwrites]
  exact ⟨_, apply_pending_patches_eq old_obj.size_lt hplaces 0 (bytesOf old_obj)⟩

end

/-! ### The patched image -/

section
variable (old_obj new_obj : Block) (old_bin new_bin : E9Binary)

/-- In the range of the old function the data has the bytes of the new one. -/
structure Replaced (data : Nat → UInt8) (old_func new_func : E9Function) : Prop where
  size : old_func.size = new_func.size
  bytes : ∀ i < old_func.size, imageOffset old_bin old_func.address + i < old_obj.size ∧
    imageOffset new_bin new_func.address + i < new_obj.size ∧
    data (imageOffset old_bin old_func.address + i) = bytesOf new_obj (imageOffset new_bin new_func.address + i)

/-- When a diff can be applied: the two functions of a pair have one size and are in their images, the runs of the
pairs that are reached are no more than patches fit, no two pairs want different bytes at one place of the old image,
and no byte that differs is only in pairs that are not reached. -/
structure DiffFits (pairs : List (E9Function × E9Function)) : Prop where
  sizes : ∀ p ∈ pairs, p.1.size = p.2.size
  inside : ∀ p ∈ pairs, InImages old_obj new_obj (pairRange old_bin new_bin p)
  room : ((reachedPairs old_obj new_obj old_bin new_bin 0 pairs).map (pairChanges old_obj new_obj old_bin new_bin)).sum ≤
    MAX_DIFF_PATCHES
  agree : ∀ p ∈ pairs, ∀ q ∈ pairs,
    (pairRange old_bin new_bin p).Agrees (bytesOf new_obj) (pairRange old_bin new_bin q)
  covered : ∀ p ∈ pairs, ∀ i < (pairRange old_bin new_bin p).size,
    byteDiffers old_obj new_obj (pairRange old_bin new_bin p) i = true →
    ∃ q ∈ reachedPairs old_obj new_obj old_bin new_bin 0 pairs,
      (pairRange old_bin new_bin q).Holds ((pairRange old_bin new_bin p).old + i)

variable {old_obj new_obj old_bin new_bin}

/-- A pair of one size is replaced where the data shows the new bytes and the ranges are in the images. -/
theorem replaced_iff {data : Nat → UInt8} {p : E9Function × E9Function} (hsize : p.1.size = p.2.size) :
    Replaced old_obj new_obj old_bin new_bin data p.1 p.2 ↔
      InImages old_obj new_obj (pairRange old_bin new_bin p) ∧
      (pairRange old_bin new_bin p).Shows (bytesOf new_obj) data := by
  have hmin : (pairRange old_bin new_bin p).size = p.1.size := by
    unfold pairRange
    simp only
    omega
  constructor
  · rintro ⟨-, hbytes⟩
    refine ⟨fun hpos => ?_, fun i hi => (hbytes i (hmin ▸ hi)).2.2⟩
    obtain ⟨hold, hnew, -⟩ := hbytes (p.1.size - 1) (by omega)
    rw [hmin] at hpos ⊢
    exact ⟨by unfold pairRange; simp only; omega, by unfold pairRange; simp only; omega⟩
  · rintro ⟨hin, hshows⟩
    refine ⟨hsize, fun i hi => ?_⟩
    obtain ⟨hold, hnew⟩ := hin (by omega)
    rw [hmin] at hold hnew
    exact ⟨Nat.lt_of_lt_of_le (Nat.add_lt_add_left hi _) hold, Nat.lt_of_lt_of_le (Nat.add_lt_add_left hi _) hnew,
      hshows i (hmin ▸ hi)⟩

/-- The comparison of the functions and the application of its patches, for given functions. -/
theorem diffFunctions_replace_iff {old_functions new_functions : List E9Function} :
    (∃ patches, diffFunctions old_obj new_obj old_bin new_bin old_functions new_functions [] = .ok patches ∧
      ∃ applied data, e9studio_apply_pending_patches old_bin old_obj.size patches 0 (bytesOf old_obj) =
          .ok (applied, data) ∧
        ∀ p ∈ functionPairs old_functions new_functions, Replaced old_obj new_obj old_bin new_bin data p.1 p.2) ↔
      DiffFits old_obj new_obj old_bin new_bin (functionPairs old_functions new_functions) := by
  have hroom : ([] : List ObjectPatch).length ≤ MAX_DIFF_PATCHES := Nat.zero_le _
  have hsub : ∀ r ∈ (reachedPairs old_obj new_obj old_bin new_bin 0 (functionPairs old_functions new_functions)).map
      (pairRange old_bin new_bin), r ∈ (functionPairs old_functions new_functions).map (pairRange old_bin new_bin) := by
    intro r hr
    obtain ⟨p, hp, rfl⟩ := List.mem_map.mp hr
    exact List.mem_map_of_mem (reachedPairs_sub p hp)
  have hshows := @overlay_shows_iff _ _ (bytesOf old_obj) (bytesOf new_obj) _ _ hsub
  simp only [List.mem_map, exists_exists_and_eq_and, forall_exists_index, and_imp,
    forall_apply_eq_imp_iff₂] at hshows
  constructor
  · rintro ⟨patches, hpatches, applied, data, hdata, hreplaced⟩
    obtain ⟨hin, hfits, rfl⟩ := (diffFunctions_iff hroom).mp hpatches
    obtain ⟨applied', happly⟩ := apply_pairPatches hin
    rw [List.nil_append, happly] at hdata
    cases hdata
    have hsizes := fun p hp => (hreplaced p hp).size
    have hboth := fun p hp => (replaced_iff (hsizes p hp)).mp (hreplaced p hp)
    obtain ⟨hagree, hcovered⟩ := hshows.mp fun p hp => (hboth p hp).2
    rw [List.length_nil, Nat.zero_add] at hfits
    exact ⟨hsizes, fun p hp => (hboth p hp).1, hfits, hagree, hcovered⟩
  · intro hfits
    obtain ⟨applied, happly⟩ := apply_pairPatches fun p hp => hfits.inside p (reachedPairs_sub p hp)
    refine ⟨_, (diffFunctions_iff hroom).mpr ⟨fun p hp => hfits.inside p (reachedPairs_sub p hp), ?_, rfl⟩, applied, _,
      happly, fun p hp => ?_⟩
    · rw [List.length_nil, Nat.zero_add]
      exact hfits.room
    · exact (replaced_iff (hfits.sizes p hp)).mpr ⟨hfits.inside p hp, hshows.mpr ⟨hfits.agree, hfits.covered⟩ p hp⟩

end

section
variable (old_obj new_obj : Block) (old_alloc new_alloc : AnalysisAllocator) (fuel : AnalysisFuel)

/-- The diff reads inside the images only and has room for its patches; and if it reports no error, its patches over
the old image give each old function that a new one has the name of the bytes of that one. -/
def DiffYieldsNew : Prop :=
  ∃ ps, e9_diff_objects old_obj new_obj old_alloc new_alloc fuel = .ok ps ∧
    (ps.error = none → ∃ r s old_bin new_bin old_functions new_functions,
      e9_binary_analyze old_obj old_alloc fuel = .ok (r, old_bin, old_functions) ∧
      e9_binary_analyze new_obj new_alloc fuel = .ok (s, new_bin, new_functions) ∧
      ∃ applied data, e9studio_apply_pending_patches old_bin old_obj.size ps.patches 0 (bytesOf old_obj) =
          .ok (applied, data) ∧
        ∀ new_func ∈ new_functions, ∀ old_func, e9_function_by_name old_functions new_func.name = some old_func →
          Replaced old_obj new_obj old_bin new_bin data old_func new_func)

variable {old_obj new_obj old_alloc new_alloc fuel}

theorem forall_functionPairs {old_functions new_functions : List E9Function} {P : E9Function → E9Function → Prop} :
    (∀ p ∈ functionPairs old_functions new_functions, P p.1 p.2) ↔
      ∀ new_func ∈ new_functions, ∀ old_func, e9_function_by_name old_functions new_func.name = some old_func →
        P old_func new_func := by
  unfold functionPairs
  constructor
  · intro h new_func hnew old_func hname
    exact h (old_func, new_func) (List.mem_filterMap.mpr ⟨new_func, hnew, by rw [hname]; rfl⟩)
  · rintro h p hp
    obtain ⟨new_func, hnew, hmap⟩ := List.mem_filterMap.mp hp
    obtain ⟨old_func, hname, rfl⟩ := Option.map_eq_some_iff.mp hmap
    exact h new_func hnew old_func hname

/-- The patches give the new functions exactly if an image is too small to be analyzed, which is reported, or both
analyses come to their ends without a read outside, and the functions that they find fit. -/
theorem diff_yields_new_iff : DiffYieldsNew old_obj new_obj old_alloc new_alloc fuel ↔
    (old_obj.size < 16 ∨ new_obj.size < 16) ∨ ∃ r s old_bin new_bin old_functions new_functions,
      e9_binary_analyze old_obj old_alloc fuel = .ok (r, old_bin, old_functions) ∧
      e9_binary_analyze new_obj new_alloc fuel = .ok (s, new_bin, new_functions) ∧
      DiffFits old_obj new_obj old_bin new_bin (functionPairs old_functions new_functions) := by
  unfold DiffYieldsNew e9_diff_objects
  by_cases hsmall : old_obj.size < 16 ∨ new_obj.size < 16
  · rw [if_pos hsmall]
    exact iff_of_true ⟨_, rfl, nofun⟩ (.inl hsmall)
  · rw [if_neg hsmall, or_iff_right hsmall]
    constructor
    · rintro ⟨ps, hps, hyields⟩
      obtain ⟨⟨r, old_bin, old_functions⟩, hold, hps⟩ := of_bind hps
      obtain ⟨⟨s, new_bin, new_functions⟩, hnew, hps⟩ := of_bind hps
      obtain ⟨patches, hpatches, hps⟩ := of_bind hps
      cases hps
      obtain ⟨_, _, _, _, _, _, hold', hnew', applied, data, happly, hreplaced⟩ := hyields rfl
      cases hold.symm.trans hold'
      cases hnew.symm.trans hnew'
      exact ⟨_, _, _, _, _, _, hold, hnew, diffFunctions_replace_iff.mp
        ⟨patches, hpatches, applied, data, happly, forall_functionPairs.mpr hreplaced⟩⟩
    · rintro ⟨r, s, old_bin, new_bin, old_functions, new_functions, hold, hnew, hfits⟩
      obtain ⟨patches, hpatches, applied, data, happly, hreplaced⟩ := diffFunctions_replace_iff.mpr hfits
      refine ⟨⟨patches, none⟩, ?_, fun _ => ⟨_, _, _, _, _, _, hold, hnew, applied, data, happly,
        forall_functionPairs.mp hreplaced⟩⟩
      rw [hold, ok_bind]
      dsimp only
      rw [hnew, ok_bind]
      dsimp only
      rw [hpatches, ok_bind]

end

/-- The same program with one `nop` less, and another byte behind its code. -/
def elfShorter : Block := ⟨elfCode.bytes.take 65 ++ [0xC3, 0x90], by decide⟩

/-- All allocations succeed. -/
def AnalysisAllocator.all : AnalysisAllocator := ⟨true, fun _ => true, fun _ => true⟩

theorem elfCode_analyzed : ∃ r bin func, e9_binary_analyze elfCode .all ⟨4, 2, 1, 4⟩ = .ok (r, bin, [func]) ∧
    func.name = some (ascii "sub_40") ∧ func.size = 3 := ⟨_, _, _, rfl, rfl, rfl⟩

theorem elfShorter_analyzed : ∃ r bin func, e9_binary_analyze elfShorter .all ⟨4, 2, 1, 4⟩ = .ok (r, bin, [func]) ∧
    func.name = some (ascii "sub_40") ∧ func.size = 2 := ⟨_, _, _, rfl, rfl, rfl⟩

/-- The entry function gets shorter: its last byte stays behind the new code, and no error is reported. -/
theorem shorter_function_kept : ∃ patches,
    e9_diff_objects elfCode elfShorter .all .all ⟨4, 2, 1, 4⟩ = .ok ⟨patches, none⟩ ∧
    ¬DiffYieldsNew elfCode elfShorter .all .all ⟨4, 2, 1, 4⟩ := by
  refine ⟨_, rfl, ?_⟩
  rintro ⟨ps, hps, hyields⟩
  have hnone : ps.error = none := by
    cases hps
    rfl
  obtain ⟨_, _, _, _, _, _, hold, hnew, _, _, _, hreplaced⟩ := hyields hnone
  obtain ⟨_, _, old_func, hold', hname, hsize⟩ := elfCode_analyzed
  obtain ⟨_, _, new_func, hnew', hname', hsize'⟩ := elfShorter_analyzed
  cases hold.symm.trans hold'
  cases hnew.symm.trans hnew'
  have hsizes := (hreplaced new_func List.mem_cons_self old_func (by simp [e9_function_by_name, hname, hname'])).size
  rw [hsize, hsize'] at hsizes
  cases hsizes

end E9Patch
