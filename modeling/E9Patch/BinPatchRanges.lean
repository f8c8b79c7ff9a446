import E9Patch.BinPatchCaves

/-!
The sessions of the in-place editor and the ranges of their patches. The recorders see to what a patch is
made of. Every patch has its range and, if it needs one, a cave, and its copies stay inside these.
-/

namespace E9Patch
open Reader Bytes Overlay

/-! ### Recorded patches -/

/-- The sessions: patches are recorded and applied, and caves may be searched for and taken. -/
inductive Recorded : E9BinPatchSession → Prop where
  | create (data : Block) (bin : E9Binary) : Recorded (e9_binpatch_session_create data bin)
  | bytes {s : E9BinPatchSession} (h : Recorded s) {addr : Int} (haddr : IsWord addr) (new : List UInt8) :
      Recorded (s.e9_binpatch_bytes addr new).2
  | nop {s : E9BinPatchSession} (h : Recorded s) {addr : Int} (haddr : IsWord addr) (size : Nat) :
      Recorded (s.e9_binpatch_nop addr size).2
  | insn {s : E9BinPatchSession} (h : Recorded s) {addr : Int} (haddr : IsWord addr) (new : List UInt8) :
      Recorded (s.e9_binpatch_insn addr new).2
  | call {s : E9BinPatchSession} (h : Recorded s) {addr target : Int} (haddr : IsWord addr) (htarget : IsWord target) :
      Recorded (s.e9_binpatch_call addr target).2
  | jmp {s : E9BinPatchSession} (h : Recorded s) {addr target : Int} (haddr : IsWord addr) (htarget : IsWord target) :
      Recorded (s.e9_binpatch_jmp addr target).2
  | hook {s : E9BinPatchSession} (h : Recorded s) {addr : Int} (haddr : IsWord addr) (code : List UInt8) :
      Recorded (s.e9_binpatch_hook addr code).2
  | detour {s : E9BinPatchSession} (h : Recorded s) {addr : Int} (haddr : IsWord addr) (code : List UInt8) :
      Recorded (s.e9_binpatch_detour addr code).2
  | caves_find {s : E9BinPatchSession} (h : Recorded s) {mem : CaveMemory} {min_size : Nat} {r : Int}
      {finder : Option E9CaveFinder} (hfind : e9_caves_find s.data s.bin mem s.cave_finder min_size = .ok (r, finder)) :
      Recorded { s with cave_finder := finder }
  | caves_alloc {s : E9BinPatchSession} (h : Recorded s) (size : Nat) :
      Recorded { s with cave_finder := (e9_caves_alloc s.cave_finder size).2 }
  | apply {s s' : E9BinPatchSession} (h : Recorded s) {mem : CaveMemory} {r : Int}
      (happly : e9_binpatch_apply mem s = .ok (r, s')) : Recorded s'
  | revert_all {s : E9BinPatchSession} (h : Recorded s) : Recorded (e9_binpatch_revert_all s).2

/-- What the recorders see to. -/
structure RecordedPatch (arch : Arch) (p : E9BinPatch) : Prop where
  address : IsWord p.address
  offset : IsWord p.offset
  target : IsWord p.target_addr
  bytes : p.type = .BYTES → p.new_bytes.length = p.orig_size
  nop : p.type = .NOP → p.new_size = p.orig_size
  insn : p.type = .INSN → p.new_bytes.length ≤ p.orig_size
  branch : p.type = .CALL ∨ p.type = .JMP → p.orig_size = if arch = .AARCH64 then 4 else 5
  code : p.type = .TRAMPOLINE → p.hook_code = []

/-- The patches and caves of a session are as they should be. -/
structure SessionOk (s : E9BinPatchSession) : Prop where
  patches : ∀ p ∈ s.patches, RecordedPatch s.bin.arch p
  caves : ∀ f, s.cave_finder = some f → CavesOf s.data s.bin f

theorem isWord_ptr (x : Int) : IsWord (ptr x) := ⟨Int.emod_nonneg _ (by decide), Int.emod_lt_of_pos _ (by decide)⟩

theorem isWord_zero : IsWord 0 := by
  unfold IsWord
  omega

theorem isWord_offset (d : Block) (bin : E9Binary) (vaddr : Int) : IsWord (e9_binpatch_vaddr_to_offset d bin vaddr) := by
  unfold e9_binpatch_vaddr_to_offset
  split
  · exact isWord_ptr _
  · split
    · exact isWord_ptr _
    · exact isWord_zero

theorem SessionOk.push {s : E9BinPatchSession} (hs : SessionOk s) {p : E9BinPatch} (hp : RecordedPatch s.bin.arch p) :
    SessionOk { s with patches := s.patches ++ [p] } := by
  refine ⟨fun q hq => ?_, hs.caves⟩
  rcases List.mem_append.mp hq with hq | hq
  · exact hs.patches q hq
  · rw [List.mem_singleton.mp hq]
    exact hp

/-- Recording a patch that keeps to the rules. -/
theorem SessionOk.record {s : E9BinPatchSession} (hs : SessionOk s) {p : E9BinPatch} (hp : RecordedPatch s.bin.arch p) :
    SessionOk (s.record p).2 := by
  unfold E9BinPatchSession.record E9BinPatchSession.add_patch
  split
  · exact hs
  · split
    · simp only
      split
      · exact hs
      · have hoffset := isWord_offset s.data s.bin p.address
        exact hs.push ⟨hp.address, hoffset, hp.target, hp.bytes, hp.nop, hp.insn, hp.branch, hp.code⟩
    · exact hs.push hp

theorem Recorded.ok {s : E9BinPatchSession} (h : Recorded s) : SessionOk s := by
  induction h with
  | create data bin => exact ⟨nofun, nofun⟩
  | bytes _ haddr new ih =>
      unfold E9BinPatchSession.e9_binpatch_bytes
      split
      · exact ih
      · exact ih.record ⟨haddr, isWord_zero, isWord_zero, fun _ => rfl, nofun, nofun, nofun, nofun⟩
  | nop _ haddr size ih =>
      unfold E9BinPatchSession.e9_binpatch_nop
      split
      · exact ih
      · exact ih.record ⟨haddr, isWord_zero, isWord_zero, nofun, fun _ => rfl, nofun, nofun, nofun⟩
  | insn _ haddr new ih =>
      unfold E9BinPatchSession.e9_binpatch_insn
      simp only
      split
      · exact ih
      · refine ih.record ⟨haddr, isWord_zero, isWord_zero, ?_, ?_, ?_, ?_, fun _ => rfl⟩
        · intro h
          simp only at h
          split at h <;> cases h
        · intro h
          simp only at h
          split at h <;> cases h
        · intro h
          simp only at h ⊢
          split at h
          · cases h
          · omega
        · intro h
          simp only at h
          split at h <;> rcases h with h | h <;> cases h
  | call _ haddr htarget ih =>
      exact ih.record ⟨haddr, isWord_zero, htarget, nofun, nofun, nofun, fun _ => rfl, nofun⟩
  | jmp _ haddr htarget ih =>
      exact ih.record ⟨haddr, isWord_zero, htarget, nofun, nofun, nofun, fun _ => rfl, nofun⟩
  | hook _ haddr code ih =>
      unfold E9BinPatchSession.e9_binpatch_hook
      split
      · exact ih
      · exact ih.record ⟨haddr, isWord_zero, isWord_zero, nofun, nofun, nofun, nofun, nofun⟩
  | detour _ haddr code ih =>
      unfold E9BinPatchSession.e9_binpatch_detour
      split
      · exact ih
      · exact ih.record ⟨haddr, isWord_zero, isWord_zero, nofun, nofun, nofun, nofun, nofun⟩
  | caves_find _ hfind ih =>
      refine ⟨ih.patches, fun f hf => ?_⟩
      cases hf
      exact caves_find_caves hfind
  | caves_alloc _ size ih => exact ⟨ih.patches, (caves_alloc_caves ih.caves size).2⟩
  | apply _ happly ih =>
      obtain ⟨hdata, hbin, hpatches, hcaves⟩ := apply_keeps ih.caves happly
      refine ⟨?_, ?_⟩
      · rw [hbin, hpatches]
        exact ih.patches
      · rw [hdata, hbin]
        exact hcaves
  | revert_all _ ih => exact ⟨ih.patches, ih.caves⟩

/-! ### The ranges of a patch -/

/-- The patches with the caves that they are given, zero where none is needed. -/
def given (d : Block) (bin : E9Binary) (mem : CaveMemory) :
    List E9BinPatch → Option E9CaveFinder → List (E9BinPatch × Int)
  | [], _ => []
  | p :: ps, finder =>
    match giveCave d bin mem finder p with
    | .error _ => []
    | .ok (cave_addr, finder) => (p, cave_addr) :: given d bin mem ps finder

/-- The range of a patch: what was recorded, or the jump where no size was. -/
def site (arch : Arch) (g : E9BinPatch × Int) : Extent :=
  ⟨g.1.offset.toNat,
    if g.1.needsCave ∧ g.1.orig_size = 0 then (e9_binpatch_gen_jmp arch g.1.address g.2).length else g.1.orig_size⟩

/-- The code that a patch brings for its cave; for an instruction that is too large, the instruction. -/
def supplied (p : E9BinPatch) : List UInt8 := if p.type = .TRAMPOLINE then p.new_bytes else p.hook_code

/-- Where the cave is in the file. -/
def caveOffset (d : Block) (bin : E9Binary) (g : E9BinPatch × Int) : Nat :=
  (e9_binpatch_vaddr_to_offset d bin g.2).toNat

/-- What is used of the cave: the code, and the jump back behind a hook. -/
def caveUse (d : Block) (bin : E9Binary) (g : E9BinPatch × Int) : Extent :=
  if g.1.needsCave then
    ⟨caveOffset d bin g,
      (supplied g.1).length + if g.1.type = .HOOK then (jumpBack bin.arch g.1 g.2).length else 0⟩
  else ⟨0, 0⟩

/-- The offsets that belong to a patch. -/
def Occupies (d : Block) (bin : E9Binary) (g : E9BinPatch × Int) (k : Nat) : Prop :=
  (site bin.arch g).Covers k ∨ (caveUse d bin g).Covers k

def InFile (d : Block) (e : Extent) : Prop := e.off + e.len ≤ d.size

/-- What the image has in a range. -/
def content (img : Nat → UInt8) (e : Extent) : List UInt8 := slice img e.off e.len

def copiesOf (d : Block) (bin : E9Binary) (g : E9BinPatch × Int) : List (Write UInt8) :=
  (patchCopies d bin g.1 g.2).getD []

theorem padded_within {arch : Arch} {p : E9BinPatch} {bytes : List UInt8} {size n : Nat} (hbytes : bytes.length ≤ n)
    (hsize : size ≤ n) {w : Write UInt8} (hw : w ∈ padded arch p bytes size) {i : Nat} (hi : w.Covers i) :
    p.offset.toNat ≤ i ∧ i < p.offset.toNat + n := by
  obtain ⟨h1, h2⟩ := hi
  unfold padded at hw
  rcases List.mem_cons.mp hw with rfl | hw
  · exact ⟨h1, by simp only at h2; omega⟩
  · split at hw
    · have hnops := gen_nops_length_le arch (size - bytes.length)
      rw [List.mem_singleton.mp hw] at h1 h2
      simp only at h1 h2
      exact ⟨by omega, by omega⟩
    · cases hw

theorem jumpCopies_within {arch : Arch} {p : E9BinPatch} {cave_addr : Int} (hcave : p.needsCave = true) {w : Write UInt8}
    (hw : w ∈ jumpCopies arch p cave_addr) {i : Nat} (hi : w.Covers i) : (site arch (p, cave_addr)).Covers i := by
  unfold jumpCopies at hw
  simp only at hw
  unfold site Extent.Covers
  simp only [hcave, true_and]
  split at hw
  · rename_i hfit
    by_cases hzero : p.orig_size = 0
    · rw [if_pos hzero]
      rw [if_neg (by omega)] at hw
      exact padded_within (Nat.le_refl _) (Nat.le_refl _) hw hi
    · rw [if_neg hzero]
      rw [if_pos (by omega)] at hw
      exact padded_within (by omega) (Nat.le_refl _) hw hi
  · cases hw

section
variable {d : Block} {bin : E9Binary} {p : E9BinPatch} {c : Int}

theorem site_plain (hcave : p.needsCave = false) : site bin.arch (p, c) = ⟨p.offset.toNat, p.orig_size⟩ := by
  unfold site
  rw [if_neg (by simp [hcave])]

/-- The copies into the cave: the code, and the jump back behind a hook. -/
def codeCopies (d : Block) (bin : E9Binary) (p : E9BinPatch) (c : Int) : List (Write UInt8) :=
  [⟨caveOffset d bin (p, c), p.hook_code⟩] ++
    if p.type = .HOOK then [⟨caveOffset d bin (p, c) + p.hook_code.length, jumpBack bin.arch p c⟩] else []

theorem codeCopies_within (hp : RecordedPatch bin.arch p) (hcave : p.needsCave = true) {w : Write UInt8}
    (hw : w ∈ codeCopies d bin p c) {i : Nat} (hi : w.Covers i) : (caveUse d bin (p, c)).Covers i := by
  have hcode : p.hook_code.length ≤ (supplied p).length := by
    unfold supplied
    split
    · rename_i htype
      rw [hp.code htype]
      exact Nat.zero_le _
    · exact Nat.le_refl _
  unfold caveUse Extent.Covers
  simp only
  rw [if_pos hcave]
  obtain ⟨h1, h2⟩ := hi
  unfold codeCopies at hw
  rcases List.mem_append.mp hw with hw | hw
  · rw [List.mem_singleton.mp hw] at h1 h2
    simp only at h1 h2 ⊢
    exact ⟨h1, by omega⟩
  · split at hw
    · rename_i hhook
      have hsupplied : supplied p = p.hook_code := by
        unfold supplied
        rw [if_neg (by rw [hhook]; nofun)]
      rw [List.mem_singleton.mp hw] at h1 h2
      simp only [if_pos hhook, hsupplied] at h1 h2 ⊢
      exact ⟨by omega, by omega⟩
    · cases hw

/-- The copies of a patch that has a cave stay inside its range and its cave. -/
theorem caveCopies_within (hp : RecordedPatch bin.arch p) (hcave : p.needsCave = true) {w : Write UInt8}
    (hw : w ∈ caveCopies d bin p c) {i : Nat} (hi : w.Covers i) : Occupies d bin (p, c) i := by
  unfold caveCopies at hw
  simp only at hw
  split at hw
  · rcases List.mem_append.mp hw with hw | hw
    · exact Or.inr (codeCopies_within hp hcave hw hi)
    · exact Or.inl (jumpCopies_within hcave hw hi)
  · cases hw

theorem branchCopies_within {branch : List UInt8} {ws : List (Write UInt8)} (h : branchCopies bin.arch p branch = some ws)
    {w : Write UInt8} (hw : w ∈ ws) {i : Nat} (hi : w.Covers i) :
    p.offset.toNat ≤ i ∧ i < p.offset.toNat + p.orig_size := by
  unfold branchCopies at h
  split at h
  · cases h
  · rename_i hlen
    cases h
    exact padded_within (by omega) (Nat.le_refl _) hw hi

/-- The copies of a patch stay inside its range and its cave. -/
theorem patchCopies_within (hp : RecordedPatch bin.arch p) {ws : List (Write UInt8)}
    (h : patchCopies d bin p c = some ws) {w : Write UInt8} (hw : w ∈ ws) {i : Nat} (hi : w.Covers i) :
    Occupies d bin (p, c) i := by
  have hplain : p.needsCave = false → p.offset.toNat ≤ i ∧ i < p.offset.toNat + p.orig_size →
      Occupies d bin (p, c) i := by
    intro hcave hrange
    refine Or.inl ?_
    rw [site_plain hcave]
    exact hrange
  have hhook : p.needsCave = true → (if c = 0 then none else some (caveCopies d bin p c)) = some ws →
      Occupies d bin (p, c) i := by
    intro hcave h
    split at h
    · cases h
    · cases h
      exact caveCopies_within hp hcave hw hi
  unfold patchCopies at h
  split at h
  · rename_i htype
    cases h
    obtain ⟨h1, h2⟩ := hi
    rw [List.mem_singleton.mp hw] at h1 h2
    simp only [hp.bytes htype] at h1 h2
    exact hplain (by simp [E9BinPatch.needsCave, htype]) ⟨h1, h2⟩
  · rename_i htype
    cases h
    obtain ⟨h1, h2⟩ := hi
    have hnops := gen_nops_length_le bin.arch p.new_size
    rw [List.mem_singleton.mp hw] at h1 h2
    simp only at h1 h2
    refine hplain (by simp [E9BinPatch.needsCave, htype]) ⟨h1, ?_⟩
    rw [← hp.nop htype]
    omega
  · rename_i htype
    cases h
    exact hplain (by simp [E9BinPatch.needsCave, htype]) (padded_within (hp.insn htype) (Nat.le_refl _) hw hi)
  · rename_i htype
    exact hplain (by simp [E9BinPatch.needsCave, htype]) (branchCopies_within h hw hi)
  · rename_i htype
    exact hplain (by simp [E9BinPatch.needsCave, htype]) (branchCopies_within h hw hi)
  · rename_i htype
    exact hhook (by simp [E9BinPatch.needsCave, htype]) h
  · rename_i htype
    exact hhook (by simp [E9BinPatch.needsCave, htype]) h
  · rename_i htype
    exact hhook (by simp [E9BinPatch.needsCave, htype]) h

end

end E9Patch
