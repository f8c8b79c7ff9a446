import E9Patch.ApeTranslation
import E9Patch.LiveReload

/-!
The accesses of `e9_livereload_apply_patch` to the mapping of the target, and the counters of the session. The
old bytes are saved before the range is checked; the check itself comes before the write. A session is opened
on a file that was parsed.
-/

namespace E9Patch
open Reader Bytes Overlay

set_option maxRecDepth 20000

/-- An access to the mapping: `memcpy` out of it or into it. -/
inductive MapAccess where
  | load (off : Int) (n : Nat)
  | store (off : Int) (n : Nat)
  deriving DecidableEq, Repr

def MapAccess.Covers (i : Int) : MapAccess → Prop
  | .load off n => off ≤ i ∧ i < off + n
  | .store off n => off ≤ i ∧ i < off + n

/-- A session with its counters, which have 64 bits. -/
structure ReloadSession where
  live : LiveReload
  patches_applied : Nat
  patches_failed : Nat
  total_bytes_patched : Nat

namespace ReloadSession

/-- What a call gives: the id, the session behind it, and the accesses in their order. -/
structure Call where
  id : Nat
  session : ReloadSession
  accesses : List MapAccess

def fail (s : ReloadSession) : ReloadSession := { s with patches_failed := (s.patches_failed + 1) % 2 ^ 64 }

/-- The session after an id was given out. -/
def numbered (s : ReloadSession) (id : Nat) : ReloadSession := { s with live := { s.live with next_patch_id := id } }

/-- `apply_patch_internal` with its counters: the session, the status and the accesses. -/
def apply_patch_internal (s : ReloadSession) (p : InternalPatch) : ReloadSession × PatchStatus × List MapAccess :=
  if p.file_offset < 0 ∨ (p.file_offset + p.new_size) % 2 ^ 64 > s.live.target_size then (s.fail, .FAILED, [])
  else if !patchOffsetOk s.live.target_size p.file_offset p.new_bytes p.new_size then (s.fail, .FAILED, [])
  else
    ({ live := { s.live with target_mapped := p.write.apply s.live.target_mapped }
       patches_applied := (s.patches_applied + 1) % 2 ^ 64, patches_failed := s.patches_failed
       total_bytes_patched := (s.total_bytes_patched + p.new_size) % 2 ^ 64 }, .APPLIED, [.store p.file_offset p.new_size])

/-- The old bytes are read where there is room for them. -/
def saveOld (p : InternalPatch) : List MapAccess :=
  if p.old_bytes.isSome then [.load p.file_offset p.old_size] else []

/-- `e9_livereload_apply_patch` with its accesses. -/
def e9_livereload_apply_patch (s : ReloadSession) (target_type : PatchTargetType) (address : Nat)
    (patch : List UInt8) (alloc : PatchAllocator) : Call :=
  if s.live.patches.length ≥ MAX_PATCHES then ⟨0, s, []⟩
  else
    let p := recordPatch s.live target_type address patch alloc
    let s := s.numbered p.id
    if p.file_offset < 0 then ⟨0, s, []⟩
    else
      let (s, status, stores) := s.apply_patch_internal p
      ⟨if status = .APPLIED then p.id else 0,
        { s with live := { s.live with patches := s.live.patches ++ [{ p with status := status }] } }, saveOld p ++ stores⟩

/-- The session was opened on a file that was parsed. -/
def Opened (s : ReloadSession) : Prop :=
  ∃ d : Block, d.size = s.live.target_size ∧ e9_ape_parse d = .ok (some s.live.ape_info)

/-- The range of the call is in the target. -/
def Fits (s : ReloadSession) (target_type : PatchTargetType) (address : Nat) (patch : List UInt8) : Prop :=
  0 ≤ resolveOffset s.live.ape_info target_type address ∧
    resolveOffset s.live.ape_info target_type address + patch.length ≤ s.live.target_size

/-- The call stays inside the target: each byte that it reads or writes is in it, and a range that is not is
turned down and counted. -/
structure StaysInside (s : ReloadSession) (target_type : PatchTargetType) (address : Nat) (patch : List UInt8)
    (r : Call) : Prop where
  inside : ∀ a ∈ r.accesses, ∀ i, a.Covers i → 0 ≤ i ∧ i < s.live.target_size
  rejected : ¬s.Fits target_type address patch →
    r.id = 0 ∧ r.session.live.target_mapped = s.live.target_mapped ∧ r.session.patches_failed = (s.patches_failed + 1) % 2 ^ 64

/-- A range that is not in the target is neither read nor left uncounted: a record is free, the offset is none
before the file, and there are no old bytes or no room for them. -/
def NothingSaved (s : ReloadSession) (target_type : PatchTargetType) (address : Nat) (patch : List UInt8)
    (alloc : PatchAllocator) : Prop :=
  s.live.patches.length < MAX_PATCHES ∧ 0 ≤ resolveOffset s.live.ape_info target_type address ∧
    (patch = [] ∨ alloc.old_bytes = false ∨ 2 ^ 63 ≤ patch.length)

/-! ### The session of the overlay -/

theorem apply_patch_internal_live (s : ReloadSession) (p : InternalPatch) :
    (s.apply_patch_internal p).1.live = { s.live with target_mapped := (E9Patch.apply_patch_internal s.live p).1 } ∧
      (s.apply_patch_internal p).2.1 = (E9Patch.apply_patch_internal s.live p).2 := by
  unfold apply_patch_internal E9Patch.apply_patch_internal
  by_cases hrange : p.file_offset < 0 ∨ (p.file_offset + p.new_size) % 2 ^ 64 > s.live.target_size
  · rw [if_pos hrange, if_pos hrange]
    exact ⟨rfl, rfl⟩
  rw [if_neg hrange, if_neg hrange]
  by_cases hok : (!patchOffsetOk s.live.target_size p.file_offset p.new_bytes p.new_size) = true
  · rw [if_pos hok, if_pos hok]
    exact ⟨rfl, rfl⟩
  · rw [if_neg hok, if_neg hok]
    exact ⟨rfl, rfl⟩

/-- Without the counters and the accesses it is the call that the overlay is about, which has no result where a byte
behind the target is read. -/
theorem apply_patch_live (s : ReloadSession) (target_type : PatchTargetType) (address : Nat) (patch : List UInt8)
    (alloc : PatchAllocator) :
    let r := s.e9_livereload_apply_patch target_type address patch alloc
    E9Patch.e9_livereload_apply_patch s.live target_type address patch alloc = .ok (r.id, r.session.live) ∨
      E9Patch.e9_livereload_apply_patch s.live target_type address patch alloc = .error .outOfBounds ∧
        ∃ a ∈ r.accesses, ∃ i, a.Covers i ∧ (s.live.target_size : Int) ≤ i := by
  unfold e9_livereload_apply_patch E9Patch.e9_livereload_apply_patch
  by_cases hfull : s.live.patches.length ≥ MAX_PATCHES
  · simp only [if_pos hfull]
    exact Or.inl trivial
  simp only [if_neg hfull]
  by_cases hneg : (recordPatch s.live target_type address patch alloc).file_offset < 0
  · simp only [if_pos hneg]
    exact Or.inl rfl
  simp only [if_neg hneg]
  by_cases hbehind : (recordPatch s.live target_type address patch alloc).ReadsBehind s.live
  · rw [if_pos hbehind]
    obtain ⟨hold, hsize, hend⟩ := hbehind
    refine Or.inr ⟨rfl, .load _ _, List.mem_append_left _ ?_, _, ⟨Int.le_sub_one_of_lt ?_, Int.sub_one_lt_of_le (Int.le_refl _)⟩,
      Int.le_sub_one_of_lt hend⟩
    · unfold saveOld
      rw [if_pos hold]
      exact List.mem_singleton.mpr rfl
    · omega
  · rw [if_neg hbehind]
    obtain ⟨hlive, hstatus⟩ :=
      apply_patch_internal_live (s.numbered _) (recordPatch s.live target_type address patch alloc)
    refine Or.inl ?_
    rw [hlive, hstatus]
    rfl

/-! ### One call -/

variable {s : ReloadSession} {target_type : PatchTargetType} {address : Nat} {patch : List UInt8}
  {alloc : PatchAllocator}

theorem rva_to_offset_lt {info : APEInfo} (h : info.Fits) {rva : Nat} (hrva : rva < 2 ^ 32) :
    e9_ape_rva_to_offset info rva < 2 ^ 63 := by
  have hsection : ∀ t : APESection, t.Fits → t.translate rva < 2 ^ 63 := by
    intro t ht
    have h1 := ht.offset
    unfold APESection.translate
    omega
  obtain ⟨htext, hrdata, hdata⟩ := APEInfo.fits_iff.mp h
  unfold e9_ape_rva_to_offset
  split
  · exact hsection _ htext
  split
  · exact hsection _ hrdata
  split
  · exact hsection _ hdata
  · omega

theorem resolveOffset_lt {info : APEInfo} (h : info.Fits) (target_type : PatchTargetType) (address : Nat) :
    resolveOffset info target_type address < 2 ^ 63 := by
  have hmod : ∀ n, n % 2 ^ 32 < 2 ^ 32 := fun n => Nat.mod_lt n (by decide)
  have hsigned : signed64 address < 2 ^ 63 := by
    unfold signed64
    omega
  cases target_type with
  | FILE_OFFSET => exact hsigned
  | PE_RVA => exact rva_to_offset_lt h (hmod _)
  | VA =>
      unfold resolveOffset
      dsimp only
      split
      · exact rva_to_offset_lt h (hmod _)
      · exact hsigned

theorem Opened.offset_lt (h : s.Opened) (target_type : PatchTargetType) (address : Nat) :
    resolveOffset s.live.ape_info target_type address < 2 ^ 63 := by
  obtain ⟨d, -, hparse⟩ := h
  exact resolveOffset_lt (parse_fits hparse) target_type address

/-- The old bytes are read exactly if there is room for them. -/
theorem mem_saveOld {a : MapAccess} : a ∈ saveOld (recordPatch s.live target_type address patch alloc) ↔
    (alloc.old_bytes = true ∧ patch.length < 2 ^ 63) ∧
      a = .load (resolveOffset s.live.ape_info target_type address) patch.length := by
  unfold saveOld
  split
  · rename_i h
    rw [List.mem_singleton]
    exact (and_iff_right (recordPatch_old.mp h)).symm
  · rename_i h
    exact iff_of_false (by simp) fun hc => h (recordPatch_old.mpr hc.1)

/-- Only a patch in the target is written. -/
theorem apply_patch_internal_cases (hoff : resolveOffset s.live.ape_info target_type address < 2 ^ 63)
    (hneg : 0 ≤ resolveOffset s.live.ape_info target_type address) (t : ReloadSession)
    (hsize : t.live.target_size = s.live.target_size) :
    t.apply_patch_internal (recordPatch s.live target_type address patch alloc) = (t.fail, .FAILED, []) ∨
      s.Fits target_type address patch ∧
      (t.apply_patch_internal (recordPatch s.live target_type address patch alloc)).2.2 =
        [.store (resolveOffset s.live.ape_info target_type address) patch.length] := by
  unfold apply_patch_internal
  split
  · exact Or.inl rfl
  split
  · exact Or.inl rfl
  rename_i hcheck hok
  refine Or.inr ⟨⟨hneg, ?_⟩, rfl⟩
  have hnew : (mallocCopy alloc.new_bytes patch).isSome = true := by
    unfold patchOffsetOk at hok
    simp only [Bool.not_eq_true, Bool.not_eq_false', Bool.and_eq_true] at hok
    exact hok.1.1
  have hlen := (mallocCopy_isSome.mp hnew).2
  have hsum : ¬(resolveOffset s.live.ape_info target_type address + patch.length) % 2 ^ 64 > t.live.target_size :=
    fun hc => hcheck (Or.inr hc)
  omega

/-- A range that is not in the target is not written. -/
theorem apply_patch_internal_outside (hoff : resolveOffset s.live.ape_info target_type address < 2 ^ 63)
    (hneg : 0 ≤ resolveOffset s.live.ape_info target_type address) (hfits : ¬s.Fits target_type address patch)
    (t : ReloadSession) (hsize : t.live.target_size = s.live.target_size) :
    t.apply_patch_internal (recordPatch s.live target_type address patch alloc) = (t.fail, .FAILED, []) := by
  rcases apply_patch_internal_cases hoff hneg t hsize with h | ⟨h, -⟩
  · exact h
  · exact absurd h hfits

/-- Where the range is in the target, so are all accesses. -/
theorem inside_of_fits (hopen : s.Opened) (hfits : s.Fits target_type address patch) :
    ∀ a ∈ (s.e9_livereload_apply_patch target_type address patch alloc).accesses,
      ∀ i, a.Covers i → 0 ≤ i ∧ i < s.live.target_size := by
  have hoff := hopen.offset_lt target_type address
  obtain ⟨hneg, hend⟩ := hfits
  unfold e9_livereload_apply_patch
  split
  · nofun
  dsimp only
  split
  · nofun
  intro a ha i hi
  rcases List.mem_append.mp ha with ha | ha
  · obtain ⟨-, rfl⟩ := mem_saveOld.mp ha
    obtain ⟨h1, h2⟩ := hi
    exact ⟨by omega, by omega⟩
  · rcases apply_patch_internal_cases hoff hneg
      (s.numbered (recordPatch s.live target_type address patch alloc).id) rfl with h | ⟨-, h⟩
    · rw [h] at ha
      cases ha
    · rw [h, List.mem_singleton] at ha
      subst ha
      obtain ⟨h1, h2⟩ := hi
      exact ⟨by omega, by omega⟩

/-- A patch stays inside the target and is counted when it does not exactly if its range is in the target, or
the old bytes are not saved. -/
theorem apply_patch_inside_iff (hopen : s.Opened) :
    s.StaysInside target_type address patch (s.e9_livereload_apply_patch target_type address patch alloc) ↔
      s.Fits target_type address patch ∨ s.NothingSaved target_type address patch alloc := by
  have hoff := hopen.offset_lt target_type address
  by_cases hfits : s.Fits target_type address patch
  · exact iff_of_true ⟨inside_of_fits hopen hfits, fun h => absurd hfits h⟩ (Or.inl hfits)
  rw [or_iff_right hfits]
  have hcount : ¬(s.patches_failed = (s.patches_failed + 1) % 2 ^ 64) := by omega
  unfold e9_livereload_apply_patch NothingSaved
  split
  · -- no record is left: nothing is counted
    rename_i hfull
    exact iff_of_false (fun h => hcount (h.rejected hfits).2.2) fun h => by omega
  rename_i hroom
  dsimp only
  split
  · -- the address is before the file: nothing is counted
    rename_i hbefore
    refine iff_of_false (fun h => hcount (h.rejected hfits).2.2) fun h => ?_
    have hneg : 0 ≤ resolveOffset s.live.ape_info target_type address := h.2.1
    exact absurd hneg (not_le.mpr hbefore)
  rename_i hneg
  have hneg : 0 ≤ resolveOffset s.live.ape_info target_type address := not_lt.mp hneg
  rw [apply_patch_internal_outside hoff hneg hfits
    (s.numbered (recordPatch s.live target_type address patch alloc).id) rfl]
  constructor
  · -- the last byte that is saved is outside
    intro h
    refine ⟨by omega, hneg, ?_⟩
    by_contra hc
    obtain ⟨hne, hroom, hlen⟩ : patch ≠ [] ∧ alloc.old_bytes = true ∧ patch.length < 2 ^ 63 := by
      simpa [not_or] using hc
    have hpos := List.length_pos_of_ne_nil hne
    have hload := h.inside (.load (resolveOffset s.live.ape_info target_type address) patch.length)
      (List.mem_append_left _ (mem_saveOld.mpr ⟨⟨hroom, hlen⟩, rfl⟩))
      (resolveOffset s.live.ape_info target_type address + (patch.length - 1 : Nat)) ⟨by omega, by omega⟩
    refine hfits ⟨hneg, ?_⟩
    omega
  · rintro ⟨-, -, hnone⟩
    refine ⟨?_, fun _ => ⟨rfl, rfl, rfl⟩⟩
    intro a ha i hi
    rw [List.append_nil] at ha
    obtain ⟨⟨hold, hlen⟩, rfl⟩ := mem_saveOld.mp ha
    obtain ⟨h1, h2⟩ := hi
    rcases hnone with rfl | hfailed | hlarge
    · simp only [List.length_nil] at h2
      omega
    · rw [hold] at hfailed
      cases hfailed
    · omega

/-- A session on a file of headers and one section. -/
def sampleReload : ReloadSession :=
  ⟨⟨(textFile (Fin.last 1)).get ∘ Nat.cast, (textFile (Fin.last 1)).size, textInfo (Fin.last 1), [], 0⟩, 0, 0, 0⟩

theorem sampleReload_opened : sampleReload.Opened := ⟨textFile 1, rfl, textFile_parsed 1⟩

theorem sampleReload_inside : sampleReload.StaysInside .FILE_OFFSET 0x90 [0x90]
    (sampleReload.e9_livereload_apply_patch .FILE_OFFSET 0x90 [0x90] ⟨true, true⟩) :=
  (apply_patch_inside_iff sampleReload_opened).mpr (Or.inl (by unfold Fits; decide))

/-- A patch of the byte behind the file is turned down, but that byte is read. -/
theorem byte_behind_read : ¬∀ (s : ReloadSession) target_type address patch alloc, s.Opened →
    s.StaysInside target_type address patch (s.e9_livereload_apply_patch target_type address patch alloc) := by
  intro h
  have hload := (h sampleReload .FILE_OFFSET (textFile 1).size [0x90] ⟨true, true⟩ sampleReload_opened).inside
    (.load (textFile 1).size 1) (by decide) (textFile 1).size ⟨by omega, by omega⟩
  exact absurd hload.2 (lt_irrefl _)

end ReloadSession

end E9Patch
