import E9Patch.ApeModel
import E9Patch.Bytes
import E9Patch.Overlay

/-!
Live reload (`e9livereload.c`): patches that are applied to the mapped target and reverted. A patch saves
the bytes that it finds, which may be those of another patch, and a revert writes them back. The bytes are copied
before the range is checked, and a copy from behind the target has no result. What `malloc` gives is part of a
call. Names, times, error texts, events and statistics are left out.
-/

namespace E9Patch
open Bytes Overlay

inductive PatchTargetType where
  | FILE_OFFSET
  | PE_RVA
  | VA
  deriving DecidableEq, Repr

inductive PatchStatus where
  | PENDING
  | APPLIED
  | FAILED
  | REVERTED
  deriving DecidableEq, Repr

structure InternalPatch where
  id : Nat
  target_type : PatchTargetType
  target_address : Nat
  file_offset : Int
  old_bytes : Option (List UInt8)
  old_size : Nat
  new_bytes : Option (List UInt8)
  new_size : Nat
  status : PatchStatus
  deriving DecidableEq, Repr

/-- The state of a session that is initialised. -/
structure LiveReload where
  target_mapped : Nat → UInt8
  target_size : Nat
  ape_info : APEInfo
  patches : List InternalPatch
  next_patch_id : Nat

def MAX_PATCHES : Nat := 256

/-- The write of `size` bytes at an offset that was checked. -/
def writeAt (offset : Int) (data : List UInt8) : Write UInt8 := ⟨offset.toNat, data⟩

/-- `malloc(size)` and a copy of `data`: no object is larger than `PTRDIFF_MAX`. -/
def mallocCopy (ok : Bool) (data : List UInt8) : Option (List UInt8) :=
  if ok ∧ data.length < 2 ^ 63 then some data else none

/-- What `apply_patch_internal` makes of the image and of the status. The sum of the first check wraps
around. -/
def apply_patch_internal (s : LiveReload) (p : InternalPatch) : (Nat → UInt8) × PatchStatus :=
  if p.file_offset < 0 ∨ (p.file_offset + p.new_size) % 2 ^ 64 > s.target_size then (s.target_mapped, .FAILED)
  else if !patchOffsetOk s.target_size p.file_offset p.new_bytes p.new_size then (s.target_mapped, .FAILED)
  else ((writeAt p.file_offset (p.new_bytes.getD [])).apply s.target_mapped, .APPLIED)

/-- Resolve the file offset. -/
def resolveOffset (info : APEInfo) (target_type : PatchTargetType) (address : Nat) : Int :=
  match target_type with
  | .FILE_OFFSET => signed64 address
  | .PE_RVA => e9_ape_rva_to_offset info (address % 2 ^ 32)
  | .VA =>
    if address ≥ 0x400000 then e9_ape_rva_to_offset info ((address - 0x400000) % 2 ^ 32)
    else signed64 address

/-- Which of the two allocations of a call succeed. -/
structure PatchAllocator where
  old_bytes : Bool
  new_bytes : Bool
  deriving DecidableEq, Repr

/-- The patch that `e9_livereload_apply_patch` records, if the bytes that it finds are in the target. -/
def recordPatch (s : LiveReload) (target_type : PatchTargetType) (address : Nat) (patch : List UInt8)
    (alloc : PatchAllocator) : InternalPatch :=
  let file_offset := resolveOffset s.ape_info target_type address
  let found := (List.range patch.length).map fun k => s.target_mapped (file_offset.toNat + k)
  { id := (s.next_patch_id + 1) % 2 ^ 32, target_type := target_type, target_address := address
    file_offset := file_offset, old_bytes := mallocCopy alloc.old_bytes found, old_size := patch.length
    new_bytes := mallocCopy alloc.new_bytes patch, new_size := patch.length, status := .PENDING }

/-- The copy of the old bytes reads behind the target. -/
def InternalPatch.ReadsBehind (s : LiveReload) (p : InternalPatch) : Prop :=
  p.old_bytes.isSome ∧ 0 < p.old_size ∧ s.target_size < p.file_offset + p.old_size

instance (s : LiveReload) (p : InternalPatch) : Decidable (p.ReadsBehind s) := inferInstanceAs (Decidable (_ ∧ _))

/-- Apply a raw patch to the target binary: its id, or 0 on error. -/
def e9_livereload_apply_patch (s : LiveReload) (target_type : PatchTargetType) (address : Nat)
    (patch : List UInt8) (alloc : PatchAllocator) : Except Reader.Fault (Nat × LiveReload) :=
  if s.patches.length ≥ MAX_PATCHES then .ok (0, s)
  else
    let p := recordPatch s target_type address patch alloc
    if p.file_offset < 0 then .ok (0, { s with next_patch_id := p.id })
    else if p.ReadsBehind s then .error .outOfBounds
    else
      let r := apply_patch_internal s p
      .ok (if r.2 = .APPLIED then p.id else 0,
        { s with target_mapped := r.1, next_patch_id := p.id, patches := s.patches ++ [{ p with status := r.2 }] })

/-- The test of the loop in `e9_livereload_revert_patch`. -/
def InternalPatch.canRevert (p : InternalPatch) (id : Nat) : Bool :=
  p.id = id && p.status = .APPLIED && p.old_bytes.isSome

/-- The loop of `e9_livereload_revert_patch`: the image and the patches behind it, if one is reverted. -/
def revertIn (img : Nat → UInt8) (id : Nat) : List InternalPatch → Option ((Nat → UInt8) × List InternalPatch)
  | [] => none
  | p :: ps =>
    if p.canRevert id then
      some ((writeAt p.file_offset (p.old_bytes.getD [])).apply img, { p with status := .REVERTED } :: ps)
    else (revertIn img id ps).map fun r => (r.1, p :: r.2)

/-- Revert a previously applied patch: 0, or -1 on error. -/
def e9_livereload_revert_patch (s : LiveReload) (patch_id : Nat) : Int × LiveReload :=
  match revertIn s.target_mapped patch_id s.patches with
  | none => (-1, s)
  | some (img, patches) => (0, { s with target_mapped := img, patches := patches })

/-! ### Runs -/

/-- A call on the session. -/
inductive LiveCall where
  | apply (target_type : PatchTargetType) (address : Nat) (patch : List UInt8) (alloc : PatchAllocator)
  | revert (patch_id : Nat)

def LiveReload.call (s : LiveReload) : LiveCall → Except Reader.Fault LiveReload
  | .apply target_type address patch alloc =>
    (e9_livereload_apply_patch s target_type address patch alloc).map Prod.snd
  | .revert patch_id => .ok (e9_livereload_revert_patch s patch_id).2

/-- A session in which nothing was applied yet. -/
structure LiveReload.Initialised (s : LiveReload) : Prop where
  patches : s.patches = []
  next_patch_id : s.next_patch_id = 0

/-- The states that calls lead to, each of them meeting `C` where it is made. -/
inductive LiveReload.Reached (C : LiveReload → LiveCall → Prop) (s₀ : LiveReload) : LiveReload → Prop
  | start : Reached C s₀ s₀
  | step {s t : LiveReload} {c : LiveCall} : Reached C s₀ s → C s c → s.call c = .ok t → Reached C s₀ t

/-! ### The overlay -/

def InternalPatch.write (p : InternalPatch) : Write UInt8 := writeAt p.file_offset (p.new_bytes.getD [])

/-- The writes of the patches that count as applied, in the order of their application. -/
def appliedWrites (ps : List InternalPatch) : List (Write UInt8) :=
  (ps.filter fun p => p.status = .APPLIED).map (·.write)

/-- The image is the first one with the patches over it that count as applied. -/
structure LiveReload.Consistent (s₀ s : LiveReload) : Prop where
  image : s.target_mapped = overlay s₀.target_mapped (appliedWrites s.patches)
  restored : (∀ p ∈ s.patches, p.status ≠ .APPLIED) → s.target_mapped = s₀.target_mapped
  present : ∀ pre p post i b, s.patches = pre ++ p :: post → p.status = .APPLIED → p.write.get i = some b →
    (∀ q ∈ post, q.status = .APPLIED → ¬q.write.Covers i) → s.target_mapped i = b

/-- The bytes that a patch finds are in the target, or it does not come to save them; and a revert takes no patch
from under a later one that is still applied. -/
def FromTop (s : LiveReload) : LiveCall → Prop
  | .apply target_type address patch alloc => s.patches.length < MAX_PATCHES →
      0 ≤ resolveOffset s.ape_info target_type address → alloc.old_bytes = true → patch ≠ [] → patch.length < 2 ^ 63 →
        resolveOffset s.ape_info target_type address + patch.length ≤ s.target_size
  | .revert id => ∀ pre p post, s.patches = pre ++ p :: post → p.canRevert id = true →
      (∀ q ∈ pre, q.canRevert id = false) → ∀ q ∈ post, q.status = .APPLIED → p.write.Disjoint q.write

/-! ### The layers of a session -/

theorem appliedWrites_append (ps qs : List InternalPatch) :
    appliedWrites (ps ++ qs) = appliedWrites ps ++ appliedWrites qs := by
  simp [appliedWrites]

theorem appliedWrites_cons_applied {p : InternalPatch} (h : p.status = .APPLIED) (ps : List InternalPatch) :
    appliedWrites (p :: ps) = p.write :: appliedWrites ps := by
  simp [appliedWrites, h]

theorem appliedWrites_cons_skip {p : InternalPatch} (h : p.status ≠ .APPLIED) (ps : List InternalPatch) :
    appliedWrites (p :: ps) = appliedWrites ps := by
  simp [appliedWrites, h]

theorem mem_appliedWrites {ps : List InternalPatch} {w : Write UInt8} (h : w ∈ appliedWrites ps) :
    ∃ p ∈ ps, p.status = .APPLIED ∧ p.write = w := by
  simpa [appliedWrites, and_assoc] using h

/-- What an applied patch saved is what stood below it: the layers of the patches before it that are still
applied. -/
structure LiveReload.Layered (s₀ s : LiveReload) : Prop where
  image : s.target_mapped = overlay s₀.target_mapped (appliedWrites s.patches)
  sized : ∀ p ∈ s.patches, p.status = .APPLIED → ∀ old, p.old_bytes = some old →
    old.length = (p.new_bytes.getD []).length
  saved : ∀ pre p post old i b, s.patches = pre ++ p :: post → p.status = .APPLIED → p.old_bytes = some old →
    (writeAt p.file_offset old).get i = some b → b = overlay s₀.target_mapped (appliedWrites pre) i

/-- Two ways to single out an element of a list. -/
theorem split_cases {α : Type} {pre pre' post post' : List α} {p q : α} (h : pre ++ p :: post = pre' ++ q :: post') :
    (∃ mid, pre = pre' ++ q :: mid ∧ post' = mid ++ p :: post) ∨ (pre = pre' ∧ p = q ∧ post = post') ∨
      ∃ mid, pre' = pre ++ p :: mid ∧ post = mid ++ q :: post' := by
  rcases List.append_eq_append_iff.mp h with ⟨as, hpre, hpost⟩ | ⟨bs, hpre, hpost⟩
  · cases as with
    | nil =>
        obtain ⟨rfl, rfl⟩ := List.cons.inj hpost
        exact Or.inr (Or.inl ⟨by simpa using hpre.symm, rfl, rfl⟩)
    | cons a as =>
        obtain ⟨rfl, rfl⟩ := List.cons.inj hpost
        exact Or.inr (Or.inr ⟨as, hpre, rfl⟩)
  · cases bs with
    | nil =>
        obtain ⟨rfl, rfl⟩ := List.cons.inj hpost
        exact Or.inr (Or.inl ⟨by simpa using hpre, rfl, rfl⟩)
    | cons b bs =>
        obtain ⟨rfl, rfl⟩ := List.cons.inj hpost
        exact Or.inl ⟨bs, hpre, rfl⟩

theorem Initialised.layered {s₀ : LiveReload} (h : s₀.Initialised) : s₀.Layered s₀ := by
  constructor
  · rw [h.patches]
    rfl
  · rw [h.patches]
    nofun
  · intro pre p post old i b hsplit
    rw [h.patches] at hsplit
    simp at hsplit

/-- Recording one more patch on top: one that is not applied changes nothing, and one that is has saved the
image as it was. -/
theorem LiveReload.Layered.push {s₀ s t : LiveReload} {p : InternalPatch} (h : s₀.Layered s)
    (hpatches : t.patches = s.patches ++ [p])
    (himage : t.target_mapped = if p.status = .APPLIED then p.write.apply s.target_mapped else s.target_mapped)
    (hold : p.status = .APPLIED → ∀ old, p.old_bytes = some old → old.length = (p.new_bytes.getD []).length ∧
      ∀ i b, (writeAt p.file_offset old).get i = some b → b = s.target_mapped i) : s₀.Layered t := by
  constructor
  · rw [himage, hpatches, appliedWrites_append, overlay_append, ← h.image]
    split
    · rename_i hp
      rw [appliedWrites_cons_applied hp]
      rfl
    · rename_i hp
      rw [appliedWrites_cons_skip hp]
      rfl
  · intro q hq hstatus old hsome
    rw [hpatches, List.mem_append, List.mem_singleton] at hq
    rcases hq with hq | rfl
    · exact h.sized q hq hstatus old hsome
    · exact (hold hstatus old hsome).1
  · intro pre q post old i b hsplit hstatus hsome hget
    rw [hpatches] at hsplit
    rcases split_cases hsplit with ⟨mid, hpre, -⟩ | ⟨rfl, rfl, -⟩ | ⟨mid, -, hnil⟩
    · exact h.saved pre q mid old i b hpre hstatus hsome hget
    · rw [(hold hstatus old hsome).2 i b hget, h.image]
    · simp at hnil

theorem apply_patch_internal_cases (s : LiveReload) (p : InternalPatch) :
    apply_patch_internal s p = (s.target_mapped, .FAILED) ∨
      apply_patch_internal s p = (p.write.apply s.target_mapped, .APPLIED) ∧ p.new_bytes.isSome := by
  unfold apply_patch_internal
  split
  · exact Or.inl rfl
  split
  · exact Or.inl rfl
  · rename_i hok
    refine Or.inr ⟨rfl, ?_⟩
    unfold patchOffsetOk at hok
    simp only [Bool.not_eq_true, Bool.not_eq_false', Bool.and_eq_true] at hok
    exact hok.1.1

theorem mallocCopy_some {ok : Bool} {data out : List UInt8} (h : mallocCopy ok data = some out) : out = data := by
  unfold mallocCopy at h
  split at h
  · exact (Option.some.inj h).symm
  · cases h

/-- What a new patch saves is the image as it is. -/
theorem recordPatch_saves {s : LiveReload} {target_type : PatchTargetType} {address : Nat} {patch old : List UInt8}
    {alloc : PatchAllocator} (hold : (recordPatch s target_type address patch alloc).old_bytes = some old) :
    old.length = patch.length ∧ ∀ i b,
      (writeAt (recordPatch s target_type address patch alloc).file_offset old).get i = some b → b = s.target_mapped i := by
  rw [mallocCopy_some hold]
  refine ⟨by simp, ?_⟩
  intro i b hget
  unfold writeAt Write.get at hget
  simp only at hget
  split at hget
  · rename_i hle
    obtain ⟨k, hk, rfl⟩ := List.mem_map.mp (List.mem_of_getElem? hget)
    simp only [List.getElem?_map, Option.map_eq_some_iff] at hget
    obtain ⟨j, hj, hb⟩ := hget
    rw [List.getElem?_eq_some_iff] at hj
    obtain ⟨hlt, hj⟩ := hj
    rw [List.getElem_range] at hj
    rw [← hb, ← hj]
    congr 1
    exact Nat.add_sub_cancel' hle
  · cases hget

theorem Layered.apply {s₀ s : LiveReload} (h : s₀.Layered s) {target_type : PatchTargetType} {address : Nat}
    {patch : List UInt8} {alloc : PatchAllocator} {r : Nat × LiveReload}
    (hcall : e9_livereload_apply_patch s target_type address patch alloc = .ok r) : s₀.Layered r.2 := by
  unfold e9_livereload_apply_patch at hcall
  split at hcall
  · cases hcall
    exact h
  simp only at hcall
  split at hcall
  · cases hcall
    exact ⟨h.image, h.sized, h.saved⟩
  split at hcall
  · cases hcall
  obtain rfl := Except.ok.inj hcall
  rcases apply_patch_internal_cases s (recordPatch s target_type address patch alloc) with hr | ⟨hr, hnew⟩
  · refine h.push rfl ?_ ?_
    · rw [hr]
      rfl
    · rw [hr]
      nofun
  · refine h.push rfl ?_ ?_
    · rw [hr]
      rfl
    · intro _ old hold
      obtain ⟨hlen, hget⟩ := recordPatch_saves hold
      refine ⟨?_, hget⟩
      obtain ⟨new, hsome⟩ := Option.isSome_iff_exists.mp hnew
      rw [hlen]
      change patch.length = ((recordPatch s target_type address patch alloc).new_bytes.getD []).length
      rw [hsome, Option.getD_some, mallocCopy_some hsome]

theorem mallocCopy_isSome {ok : Bool} {data : List UInt8} :
    (mallocCopy ok data).isSome = true ↔ ok = true ∧ data.length < 2 ^ 63 := by
  unfold mallocCopy
  split
  · rename_i h
    exact iff_of_true rfl h
  · rename_i h
    exact iff_of_false (by simp) h

/-- The old bytes are copied where there is room for them. -/
theorem recordPatch_old {s : LiveReload} {target_type : PatchTargetType} {address : Nat} {patch : List UInt8}
    {alloc : PatchAllocator} : (recordPatch s target_type address patch alloc).old_bytes.isSome = true ↔
      alloc.old_bytes = true ∧ patch.length < 2 ^ 63 := by
  unfold recordPatch
  dsimp only
  rw [mallocCopy_isSome, List.length_map, List.length_range]

/-- A call that meets the condition has a result. -/
theorem FromTop.call {s : LiveReload} {c : LiveCall} (h : FromTop s c) : ∃ t, s.call c = .ok t := by
  cases c with
  | revert id => exact ⟨_, rfl⟩
  | apply target_type address patch alloc =>
      unfold LiveReload.call e9_livereload_apply_patch
      dsimp only
      split
      · exact ⟨_, rfl⟩
      · rename_i hroom
        split
        · exact ⟨_, rfl⟩
        · rename_i hneg
          rw [if_neg]
          · exact ⟨_, rfl⟩
          · rintro ⟨hold, hsize, hbehind⟩
            obtain ⟨halloc, hlength⟩ := recordPatch_old.mp hold
            have hinside := h (Nat.lt_of_not_le hroom) (Int.not_lt.mp hneg) halloc (List.ne_nil_of_length_pos hsize) hlength
            exact absurd hbehind (Int.not_lt.mpr hinside)

theorem revertIn_some {img img' : Nat → UInt8} {id : Nat} {ps ps' : List InternalPatch}
    (h : revertIn img id ps = some (img', ps')) :
    ∃ pre p post, ps = pre ++ p :: post ∧ (∀ q ∈ pre, q.canRevert id = false) ∧ p.canRevert id = true ∧
      img' = (writeAt p.file_offset (p.old_bytes.getD [])).apply img ∧
      ps' = pre ++ { p with status := .REVERTED } :: post := by
  induction ps generalizing ps' with
  | nil => cases h
  | cons p ps ih =>
      unfold revertIn at h
      split at h
      · rename_i hp
        cases h
        exact ⟨[], p, ps, rfl, nofun, hp, rfl, rfl⟩
      · rename_i hp
        obtain ⟨⟨img₁, ps₁⟩, hr, heq⟩ := Option.map_eq_some_iff.mp h
        cases heq
        obtain ⟨pre, q, post, rfl, hpre, hq, himg, rfl⟩ := ih hr
        refine ⟨p :: pre, q, post, rfl, ?_, hq, himg, rfl⟩
        intro r hrmem
        rcases List.mem_cons.mp hrmem with rfl | hrmem
        · simpa using hp
        · exact hpre r hrmem

theorem writeAt_covers {offset : Int} {as bs : List UInt8} (h : as.length = bs.length) (i : Nat) :
    (writeAt offset as).Covers i ↔ (writeAt offset bs).Covers i := by
  unfold writeAt Write.Covers
  rw [h]

theorem Layered.revert {s₀ s : LiveReload} (h : s₀.Layered s) {id : Nat} (hc : FromTop s (.revert id)) :
    s₀.Layered (e9_livereload_revert_patch s id).2 := by
  unfold e9_livereload_revert_patch
  split
  · exact h
  rename_i img ps hr
  obtain ⟨pre, p, post, hsplit, hpre, hp, himg, hps⟩ := revertIn_some hr
  have htop := hc pre p post hsplit hp hpre
  have hmem : p ∈ s.patches := by
    rw [hsplit]
    exact List.mem_append_right _ List.mem_cons_self
  obtain ⟨⟨hid, hstatus⟩, hsome⟩ : (p.id = id ∧ p.status = .APPLIED) ∧ p.old_bytes.isSome = true := by
    simpa [InternalPatch.canRevert] using hp
  obtain ⟨old, hold⟩ := Option.isSome_iff_exists.mp hsome
  rw [hold, Option.getD_some] at himg
  have hlen := h.sized p hmem hstatus old hold
  have hcovers : ∀ i, (writeAt p.file_offset old).Covers i ↔ p.write.Covers i := writeAt_covers hlen
  constructor
  · change img = overlay s₀.target_mapped (appliedWrites ps)
    rw [himg, h.image, hsplit, hps, appliedWrites_append, appliedWrites_append, appliedWrites_cons_applied hstatus,
      appliedWrites_cons_skip (by simp)]
    refine overlay_restore hcovers (h.saved pre p post old · · hsplit hstatus hold) ?_
    intro v hv
    obtain ⟨q, hq, hqs, rfl⟩ := mem_appliedWrites hv
    exact htop q hq hqs
  · intro q hq hqs
    change q ∈ ps at hq
    rw [hps, List.mem_append, List.mem_cons] at hq
    rcases hq with hq | rfl | hq
    · exact h.sized q (by rw [hsplit]; exact List.mem_append_left _ hq) hqs
    · cases hqs
    · exact h.sized q (by rw [hsplit]; exact List.mem_append_right _ (List.mem_cons_of_mem _ hq)) hqs
  · intro pre' q post' old' i b hsplit' hqs hqold hget
    change ps = _ at hsplit'
    rw [hps] at hsplit'
    rcases split_cases hsplit' with ⟨mid, hpre', -⟩ | ⟨-, rfl, -⟩ | ⟨mid, hpre', hpost⟩
    · refine h.saved pre' q (mid ++ p :: post) old' i b ?_ hqs hqold hget
      rw [hsplit, hpre', List.append_assoc, List.cons_append]
    · cases hqs
    · have hq : q ∈ post := by
        rw [hpost]
        exact List.mem_append_right _ List.mem_cons_self
      have hs : s.patches = (pre ++ p :: mid) ++ q :: post' := by
        rw [hsplit, hpost, List.append_assoc, List.cons_append]
      have hcov : q.write.Covers i := by
        have hlen' := h.sized q (by rw [hsplit]; exact List.mem_append_right _ (List.mem_cons_of_mem _ hq)) hqs old' hqold
        refine (writeAt_covers hlen' i).mp ?_
        by_contra hn
        rw [Write.get_eq_none.mpr hn] at hget
        cases hget
      have hb := h.saved (pre ++ p :: mid) q post' old' i b hs hqs hqold hget
      rw [hb, hpre', appliedWrites_append, appliedWrites_append, appliedWrites_cons_applied hstatus,
        appliedWrites_cons_skip (by simp)]
      exact overlay_skip _ _ _ fun hpc => htop q hq hqs i ⟨hpc, hcov⟩

/-- The image that the layers give is the one the statuses promise. -/
theorem Layered.consistent {s₀ s : LiveReload} (h : s₀.Layered s) : s₀.Consistent s := by
  constructor
  · exact h.image
  · intro hnone
    have : appliedWrites s.patches = [] := by
      unfold appliedWrites
      rw [List.filter_eq_nil_iff.mpr (by simpa using hnone)]
      rfl
    rw [h.image, this]
    rfl
  · intro pre p post i b hsplit hstatus hget hpost
    rw [h.image, hsplit, appliedWrites_append, appliedWrites_cons_applied hstatus]
    refine overlay_top _ _ hget ?_
    intro v hv
    obtain ⟨q, hq, hqs, rfl⟩ := mem_appliedWrites hv
    exact hpost q hq hqs

/-- **Consistency.** As long as no patch is reverted from under a later one that is still applied, and none is applied
behind the target, every call has a result and the image is the first one with the applied patches over it. -/
theorem livereload_consistent {s₀ s : LiveReload} (hinit : s₀.Initialised) (hr : s₀.Reached FromTop s) :
    s₀.Consistent s ∧ ∀ c, FromTop s c → ∃ t, s.call c = .ok t := by
  refine ⟨Layered.consistent ?_, fun c hc => hc.call⟩
  induction hr with
  | start => exact Initialised.layered hinit
  | @step t u c _ hc hcall ih =>
      cases c with
      | apply target_type address patch alloc =>
          unfold LiveReload.call at hcall
          dsimp only at hcall
          cases hrun : e9_livereload_apply_patch t target_type address patch alloc with
          | error e =>
              rw [hrun] at hcall
              cases hcall
          | ok r =>
              rw [hrun] at hcall
              cases hcall
              exact Layered.apply ih hrun
      | revert id =>
          obtain rfl := Except.ok.inj hcall
          exact Layered.revert ih hc

/-- A session on eight zero bytes. -/
def sampleSession : LiveReload := ⟨fun _ => 0, 8, APEInfo.zero, [], 0⟩

/-- The states after some calls, while they have results. -/
def LiveReload.calls (s : LiveReload) : List LiveCall → LiveReload
  | [] => s
  | c :: cs => match s.call c with
    | .error _ => s
    | .ok t => t.calls cs

/-- Two bytes are patched and reverted. -/
theorem sampleSession_reverted :
    sampleSession.Consistent (sampleSession.calls [.apply .FILE_OFFSET 2 [1, 1] ⟨true, true⟩, .revert 1]) := by
  have h1 : sampleSession.Reached FromTop (sampleSession.calls [.apply .FILE_OFFSET 2 [1, 1] ⟨true, true⟩]) :=
    .step (c := .apply .FILE_OFFSET 2 [1, 1] ⟨true, true⟩) .start (by unfold FromTop; decide) rfl
  refine (livereload_consistent ⟨rfl, rfl⟩ (.step (c := .revert 1) h1 ?_ rfl)).1
  intro pre p post hsplit _ _ q hq
  have hone : (pre ++ p :: post).length = 1 := by
    rw [← hsplit]
    rfl
  cases post with
  | nil => cases hq
  | cons r post =>
      simp only [List.length_append, List.length_cons] at hone
      omega

/-- Two overlapping patches, reverted in the order of their application: after the first revert the second
patch counts as applied but is gone, and after the second a byte of the first is back. And a patch behind the target
has no result. -/
theorem sampleSession_out_of_order :
    (∃ s t : LiveReload, sampleSession.Initialised ∧ sampleSession.Reached (fun _ _ => True) s ∧
      sampleSession.Reached (fun _ _ => True) t ∧
      (s.patches.map (·.status) = [.REVERTED, .APPLIED] ∧ s.target_mapped 2 = 0 ∧ ¬sampleSession.Consistent s) ∧
      (t.patches.map (·.status) = [.REVERTED, .REVERTED] ∧ t.target_mapped 2 = 1 ∧ ¬sampleSession.Consistent t)) ∧
      sampleSession.call (.apply .FILE_OFFSET 0x100000 [1] ⟨true, true⟩) = .error .outOfBounds := by
  refine ⟨?_, rfl⟩
  have h1 : sampleSession.Reached (fun _ _ => True)
      (sampleSession.calls [.apply .FILE_OFFSET 0 [1, 1, 1, 1] ⟨true, true⟩]) :=
    .step (c := .apply .FILE_OFFSET 0 [1, 1, 1, 1] ⟨true, true⟩) .start trivial rfl
  have h2 := h1.step (c := .apply .FILE_OFFSET 2 [2, 2] ⟨true, true⟩) trivial rfl
  have hs := h2.step (c := .revert 1) trivial rfl
  refine ⟨_, _, ⟨rfl, rfl⟩, hs, .step (c := .revert 2) hs trivial rfl, ⟨by decide, by decide, ?_⟩, by decide, by decide, ?_⟩
  · intro h
    have := congrFun h.image 2
    exact absurd this (by decide)
  · intro h
    have := congrFun h.image 2
    exact absurd this (by decide)

end E9Patch
