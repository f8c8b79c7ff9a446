import E9Patch.BinPatchRanges

/-!
What applying a session makes of the recorded patches. Where the ranges and caves of the patches keep clear
of each other, each patch can be looked at by itself. The recorders and the check before the application
see to some of what a patch needs; the rest is asked of the session.
-/

namespace E9Patch
open Reader Bytes Overlay

set_option maxRecDepth 20000

/-! ### What a patch is to do -/

/-- The image has what the patch is to do: its range the new bytes, and no-operations behind them, or a transfer
of control to the target or to the cave, and the cave the code. -/
def PatchRealised (d : Block) (bin : E9Binary) (img : Nat → UInt8) (g : E9BinPatch × Int) : Prop :=
  InFile d (site bin.arch g) ∧
    match g.1.type with
    | .BYTES => content img (site bin.arch g) = g.1.new_bytes
    | .NOP => NopRun bin.arch (content img (site bin.arch g))
    | .INSN => ∃ nops, NopRun bin.arch nops ∧ content img (site bin.arch g) = g.1.new_bytes ++ nops
    | .CALL => decodeTransfer bin.arch (content img (site bin.arch g)) g.1.address = some (.call, g.1.target_addr)
    | .JMP => decodeTransfer bin.arch (content img (site bin.arch g)) g.1.address = some (.jump, g.1.target_addr)
    | .TRAMPOLINE | .HOOK | .DETOUR =>
      decodeTransfer bin.arch (content img (site bin.arch g)) g.1.address = some (.jump, g.2) ∧
        InFile d (caveUse d bin g) ∧ slice img (caveOffset d bin g) (supplied g.1).length = supplied g.1

/-- The address of the cave has a place in the file, with room for the code. -/
def CaveInFile (d : Block) (bin : E9Binary) (g : E9BinPatch × Int) : Prop :=
  e9_binpatch_vaddr_to_offset d bin g.2 > 0 ∧
    ptr (e9_binpatch_vaddr_to_offset d bin g.2 + g.1.hook_code.length) ≤ d.size

/-- The jump to the cave is no larger than what it replaces. -/
def JumpFits (arch : Arch) (g : E9BinPatch × Int) : Prop :=
  (e9_binpatch_gen_jmp arch g.1.address g.2).length ≤ g.1.orig_size ∨ g.1.orig_size = 0

/-- What a patch asks for. A jump or code that is not written would have to be in the file already. -/
def PatchFits (d : Block) (bin : E9Binary) (g : E9BinPatch × Int) : Prop :=
  InFile d (site bin.arch g) ∧
    match g.1.type with
    | .BYTES => True
    | .NOP => bin.arch = .AARCH64 → g.1.orig_size % 4 = 0
    | .INSN => bin.arch = .AARCH64 → (g.1.orig_size - g.1.new_bytes.length) % 4 = 0
    | .CALL | .JMP => BranchReaches bin.arch g.1.address g.1.target_addr
    | .TRAMPOLINE | .HOOK | .DETOUR =>
      (CaveInFile d bin g ∧ JumpFits bin.arch g ∧ BranchReaches bin.arch g.1.address g.2 ∨
        ¬(CaveInFile d bin g ∧ JumpFits bin.arch g) ∧
          decodeTransfer bin.arch (content (fileImage d) (site bin.arch g)) g.1.address = some (.jump, g.2)) ∧
        InFile d (caveUse d bin g) ∧
          (CaveInFile d bin g ∧ g.1.type ≠ .TRAMPOLINE ∨
            slice (fileImage d) (caveOffset d bin g) (supplied g.1).length = supplied g.1)

theorem patchRealised_congr {d : Block} {bin : E9Binary} {img img' : Nat → UInt8} {g : E9BinPatch × Int}
    (h : ∀ k < d.size, Occupies d bin g k → img k = img' k) :
    PatchRealised d bin img g ↔ PatchRealised d bin img' g := by
  unfold PatchRealised
  refine and_congr_right fun hsitefile => ?_
  have hsite : content img (site bin.arch g) = content img' (site bin.arch g) := by
    refine slice_congr fun i h1 h2 => h i ?_ (Or.inl ⟨h1, h2⟩)
    unfold InFile at hsitefile
    omega
  have hcave : g.1.needsCave = true → InFile d (caveUse d bin g) →
      slice img (caveOffset d bin g) (supplied g.1).length = slice img' (caveOffset d bin g) (supplied g.1).length := by
    intro hneeds hcavefile
    unfold InFile at hcavefile
    refine slice_congr fun i h1 h2 => ?_
    have hcovers : (caveUse d bin g).Covers i := by
      unfold caveUse
      rw [if_pos hneeds]
      exact ⟨h1, by simp only; omega⟩
    have hend := hcovers.2
    exact h i (by omega) (Or.inr hcovers)
  have hboth : g.1.needsCave = true → ∀ P : Prop, (P ∧ InFile d (caveUse d bin g) ∧
      slice img (caveOffset d bin g) (supplied g.1).length = supplied g.1) ↔ (P ∧ InFile d (caveUse d bin g) ∧
        slice img' (caveOffset d bin g) (supplied g.1).length = supplied g.1) := by
    intro hneeds P
    refine and_congr Iff.rfl (and_congr_right fun hcavefile => ?_)
    rw [hcave hneeds hcavefile]
  rw [hsite]
  cases htype : g.1.type with
  | BYTES => exact Iff.rfl
  | NOP => exact Iff.rfl
  | INSN => exact Iff.rfl
  | CALL => exact Iff.rfl
  | JMP => exact Iff.rfl
  | TRAMPOLINE => exact hboth (by simp [E9BinPatch.needsCave, htype]) _
  | HOOK => exact hboth (by simp [E9BinPatch.needsCave, htype]) _
  | DETOUR => exact hboth (by simp [E9BinPatch.needsCave, htype]) _

/-! ### One patch -/

section
variable {d : Block} {bin : E9Binary} {p : E9BinPatch} {c : Int}

/-- The first bytes of a padded range are those that were to go there. -/
theorem slice_padded (img : Nat → UInt8) (pre : List (Write UInt8)) (arch : Arch) (p : E9BinPatch)
    (bytes : List UInt8) (size : Nat) :
    slice (overlay img (pre ++ padded arch p bytes size)) p.offset.toNat bytes.length = bytes := by
  unfold padded
  refine slice_overlay_top img pre (w := ⟨p.offset.toNat, bytes⟩) fun v hv i hi => ?_
  obtain ⟨⟨h1, h2⟩, ⟨h3, h4⟩⟩ := hi
  split at hv
  · rw [List.mem_singleton.mp hv] at h3
    simp only at h2 h3
    omega
  · cases hv

/-- The rest is filled with no-operations, where these are as many bytes. -/
theorem slice_padding (img : Nat → UInt8) {arch : Arch} {bytes : List UInt8} {size : Nat} (hlen : bytes.length ≤ size)
    (hfull : arch = .AARCH64 → (size - bytes.length) % 4 = 0) :
    slice (overlay img (padded arch p bytes size)) (p.offset.toNat + bytes.length) (size - bytes.length) =
      e9_binpatch_gen_nops arch (size - bytes.length) := by
  have hnops := gen_nops_full.mpr hfull
  unfold padded
  split
  · have h := @slice_overlay_top _ img [⟨p.offset.toNat, bytes⟩]
      ⟨p.offset.toNat + bytes.length, e9_binpatch_gen_nops arch (size - bytes.length)⟩ [] nofun
    simp only [hnops] at h
    exact h
  · rename_i hge
    have hzero : size - bytes.length = 0 := by omega
    rw [hzero] at hnops ⊢
    exact (List.eq_nil_of_length_eq_zero hnops).symm

/-- The range of a patch starts with the bytes that were put there. -/
theorem content_padded (img : Nat → UInt8) (pre : List (Write UInt8)) (arch : Arch) {bytes : List UInt8} {size n : Nat}
    (hlen : bytes.length ≤ n) : ∃ rest,
      content (overlay img (pre ++ padded arch p bytes size)) ⟨p.offset.toNat, n⟩ = bytes ++ rest := by
  refine ⟨slice (overlay img (pre ++ padded arch p bytes size)) (p.offset.toNat + bytes.length) (n - bytes.length), ?_⟩
  unfold content
  have h := slice_add (overlay img (pre ++ padded arch p bytes size)) p.offset.toNat bytes.length (n - bytes.length)
  rw [Nat.add_sub_cancel' hlen, slice_padded] at h
  exact h

/-- A patch that replaces an instruction in place. -/
theorem insn_realised (hp : RecordedPatch bin.arch p) (htype : p.type = .INSN) :
    (∃ nops, NopRun bin.arch nops ∧
      content (overlay (fileImage d) (padded bin.arch p p.new_bytes p.orig_size)) ⟨p.offset.toNat, p.orig_size⟩ =
        p.new_bytes ++ nops) ↔ (bin.arch = .AARCH64 → (p.orig_size - p.new_bytes.length) % 4 = 0) := by
  have hlen := hp.insn htype
  constructor
  · rintro ⟨nops, hnops, heq⟩ harch
    have hsize : p.orig_size = p.new_bytes.length + nops.length := by
      have h := congrArg List.length heq
      unfold content at h
      rwa [slice_length, List.length_append] at h
    have hmod := hnops.length_mod harch
    omega
  · intro hfull
    refine ⟨e9_binpatch_gen_nops bin.arch (p.orig_size - p.new_bytes.length), gen_nops_run _ _, ?_⟩
    unfold content
    have h := slice_add (overlay (fileImage d) (padded bin.arch p p.new_bytes p.orig_size)) p.offset.toNat
      p.new_bytes.length (p.orig_size - p.new_bytes.length)
    have hfirst := slice_padded (fileImage d) [] bin.arch p p.new_bytes p.orig_size
    rw [List.nil_append] at hfirst
    rw [Nat.add_sub_cancel' hlen, slice_padding _ hlen hfull, hfirst] at h
    exact h

theorem nop_realised (hp : RecordedPatch bin.arch p) (htype : p.type = .NOP) :
    NopRun bin.arch (content (overlay (fileImage d) [⟨p.offset.toNat, e9_binpatch_gen_nops bin.arch p.new_size⟩])
      ⟨p.offset.toNat, p.orig_size⟩) ↔ (bin.arch = .AARCH64 → p.orig_size % 4 = 0) := by
  rw [hp.nop htype]
  constructor
  · intro h harch
    have := h.length_mod harch
    unfold content at this
    rwa [slice_length] at this
  · intro hfull
    have h := @slice_overlay_top _ (fileImage d) [] ⟨p.offset.toNat, e9_binpatch_gen_nops bin.arch p.orig_size⟩ [] nofun
    simp only [gen_nops_full.mpr hfull, List.nil_append] at h
    unfold content
    rw [h]
    exact gen_nops_run _ _

theorem branch_le {branch : List UInt8} {ws : List (Write UInt8)} (hws : branchCopies bin.arch p branch = some ws) :
    branch.length ≤ p.orig_size := by
  unfold branchCopies at hws
  split at hws
  · cases hws
  · omega

/-- A call or jump that is patched. -/
theorem branch_realised {branch : List UInt8} {ws : List (Write UInt8)} {kind : TransferKind}
    (hws : branchCopies bin.arch p branch = some ws)
    (hdecode : ∀ rest, decodeTransfer bin.arch (branch ++ rest) p.address = some (kind, p.target_addr) ↔
      BranchReaches bin.arch p.address p.target_addr) :
    decodeTransfer bin.arch (content (overlay (fileImage d) ws) ⟨p.offset.toNat, p.orig_size⟩) p.address =
      some (kind, p.target_addr) ↔ BranchReaches bin.arch p.address p.target_addr := by
  unfold branchCopies at hws
  split at hws
  · cases hws
  · rename_i hlen
    cases hws
    obtain ⟨rest, hcontent⟩ := @content_padded p (fileImage d) [] bin.arch branch p.orig_size p.orig_size (by omega)
    rw [List.nil_append] at hcontent
    rw [hcontent]
    exact hdecode rest

theorem caveCopies_eq (h : CaveInFile d bin (p, c)) :
    caveCopies d bin p c = codeCopies d bin p c ++ jumpCopies bin.arch p c := by
  unfold caveCopies
  exact if_pos h

theorem caveCopies_none (h : ¬CaveInFile d bin (p, c)) : caveCopies d bin p c = [] := by
  unfold caveCopies
  exact if_neg h

theorem jumpCopies_eq (h : JumpFits bin.arch (p, c)) (hcave : p.needsCave = true) : jumpCopies bin.arch p c =
    padded bin.arch p (e9_binpatch_gen_jmp bin.arch p.address c) (site bin.arch (p, c)).len := by
  unfold jumpCopies
  simp only
  rw [if_pos (show _ ∨ _ from h)]
  unfold site
  simp only [hcave, true_and]
  congr 1
  by_cases hzero : p.orig_size = 0
  · rw [if_pos hzero, if_neg (by omega)]
  · rw [if_neg hzero, if_pos (by omega)]

theorem jumpCopies_none (h : ¬JumpFits bin.arch (p, c)) : jumpCopies bin.arch p c = [] := by
  unfold jumpCopies
  exact if_neg h

theorem jump_le_site (h : JumpFits bin.arch (p, c)) (hcave : p.needsCave = true) :
    (e9_binpatch_gen_jmp bin.arch p.address c).length ≤ (site bin.arch (p, c)).len := by
  unfold site
  simp only [hcave, true_and]
  unfold JumpFits at h
  simp only at h
  split
  · exact Nat.le_refl _
  · omega

/-- The range of a patch with a cave, after its copies: the jump if it was written, else what the file has. -/
theorem cave_site_realised (hp : RecordedPatch bin.arch p) (hc : IsWord c) (hcave : p.needsCave = true)
    (hown : (site bin.arch (p, c)).Apart (caveUse d bin (p, c))) :
    decodeTransfer bin.arch (content (overlay (fileImage d) (caveCopies d bin p c)) (site bin.arch (p, c))) p.address =
      some (.jump, c) ↔
    (CaveInFile d bin (p, c) ∧ JumpFits bin.arch (p, c) ∧ BranchReaches bin.arch p.address c ∨
      ¬(CaveInFile d bin (p, c) ∧ JumpFits bin.arch (p, c)) ∧
        decodeTransfer bin.arch (content (fileImage d) (site bin.arch (p, c))) p.address = some (.jump, c)) := by
  by_cases hwritten : CaveInFile d bin (p, c) ∧ JumpFits bin.arch (p, c)
  · obtain ⟨hinfile, hfits⟩ := hwritten
    rw [caveCopies_eq hinfile, jumpCopies_eq hfits hcave]
    obtain ⟨rest, hcontent⟩ := @content_padded p (fileImage d) (codeCopies d bin p c) bin.arch _
      (site bin.arch (p, c)).len _ (jump_le_site hfits hcave)
    have hsite : site bin.arch (p, c) = ⟨p.offset.toNat, (site bin.arch (p, c)).len⟩ := rfl
    rw [← hsite] at hcontent
    rw [hcontent, decode_gen_jmp hc]
    simp only [hinfile, hfits, true_and, not_true_eq_false, false_and, or_false]
  · have hsame : content (overlay (fileImage d) (caveCopies d bin p c)) (site bin.arch (p, c)) =
        content (fileImage d) (site bin.arch (p, c)) := by
      by_cases hinfile : CaveInFile d bin (p, c)
      · rw [caveCopies_eq hinfile, jumpCopies_none fun hfits => hwritten ⟨hinfile, hfits⟩, List.append_nil]
        exact slice_overlay_of_apart _ fun w hw i h1 h2 hi => hown i ⟨⟨h1, h2⟩, codeCopies_within hp hcave hw hi⟩
      · rw [caveCopies_none hinfile, overlay_nil]
    rw [hsame]
    simp only [hwritten, not_false_eq_true, true_and]
    constructor
    · exact Or.inr
    · rintro (⟨h1, h2, -⟩ | h)
      · exact absurd ⟨h1, h2⟩ hwritten
      · exact h

/-- The cave of a patch, after its copies: the code if it was written, else what the file has. -/
theorem cave_code_realised (hp : RecordedPatch bin.arch p) (hcave : p.needsCave = true)
    (hown : (site bin.arch (p, c)).Apart (caveUse d bin (p, c))) :
    slice (overlay (fileImage d) (caveCopies d bin p c)) (caveOffset d bin (p, c)) (supplied p).length = supplied p ↔
    (CaveInFile d bin (p, c) ∧ p.type ≠ .TRAMPOLINE ∨
      slice (fileImage d) (caveOffset d bin (p, c)) (supplied p).length = supplied p) := by
  have huse : ∀ i, caveOffset d bin (p, c) ≤ i → i < caveOffset d bin (p, c) + (supplied p).length →
      (caveUse d bin (p, c)).Covers i := by
    intro i h1 h2
    unfold caveUse
    rw [if_pos hcave]
    exact ⟨h1, by simp only; omega⟩
  have hjump : ∀ w ∈ jumpCopies bin.arch p c, ∀ i, caveOffset d bin (p, c) ≤ i →
      i < caveOffset d bin (p, c) + (supplied p).length → ¬w.Covers i :=
    fun w hw i h1 h2 hi => hown i ⟨jumpCopies_within hcave hw hi, huse i h1 h2⟩
  by_cases hinfile : CaveInFile d bin (p, c)
  · rw [caveCopies_eq hinfile]
    by_cases htype : p.type = .TRAMPOLINE
    · have hsame : slice (overlay (fileImage d) (codeCopies d bin p c ++ jumpCopies bin.arch p c)) (caveOffset d bin (p, c))
          (supplied p).length = slice (fileImage d) (caveOffset d bin (p, c)) (supplied p).length := by
        refine slice_overlay_of_apart _ fun w hw i h1 h2 hi => ?_
        rcases List.mem_append.mp hw with hw | hw
        · unfold codeCopies at hw
          rw [if_neg (by rw [htype]; nofun), List.append_nil] at hw
          obtain ⟨h3, h4⟩ := hi
          rw [List.mem_singleton.mp hw] at h3 h4
          simp only [hp.code htype, List.length_nil] at h3 h4
          omega
        · exact hjump w hw i h1 h2 hi
      rw [hsame]
      simp only [htype, ne_eq, not_true_eq_false, and_false, false_or]
    · have hsupplied : supplied p = p.hook_code := if_neg htype
      have hcode : slice (overlay (fileImage d) (codeCopies d bin p c ++ jumpCopies bin.arch p c))
          (caveOffset d bin (p, c)) (supplied p).length = supplied p := by
        rw [hsupplied] at hjump ⊢
        unfold codeCopies
        rw [List.append_assoc, List.singleton_append]
        refine @slice_overlay_top _ (fileImage d) [] ⟨caveOffset d bin (p, c), p.hook_code⟩ _ fun v hv i hi => ?_
        obtain ⟨⟨h1, h2⟩, hcovers⟩ := hi
        rcases List.mem_append.mp hv with hv | hv
        · split at hv
          · have h3 := hcovers.1
            rw [List.mem_singleton.mp hv] at h3
            simp only at h2 h3
            omega
          · cases hv
        · exact hjump v hv i h1 h2 hcovers
      exact iff_of_true hcode (Or.inl ⟨hinfile, htype⟩)
  · rw [caveCopies_none hinfile, overlay_nil]
    simp only [hinfile, false_and, false_or]

/-- A patch by itself is realised just if it has what it asks for. -/
theorem patch_realised_iff (hp : RecordedPatch bin.arch p) (hc : p.needsCave = true → IsWord c)
    (hown : (site bin.arch (p, c)).Apart (caveUse d bin (p, c))) {ws : List (Write UInt8)}
    (hws : patchCopies d bin p c = some ws) :
    PatchRealised d bin (overlay (fileImage d) ws) (p, c) ↔ PatchFits d bin (p, c) := by
  have hcave : p.needsCave = true → (if c = 0 then none else some (caveCopies d bin p c)) = some ws →
      (decodeTransfer bin.arch (content (overlay (fileImage d) ws) (site bin.arch (p, c))) p.address = some (.jump, c) ∧
        InFile d (caveUse d bin (p, c)) ∧
          slice (overlay (fileImage d) ws) (caveOffset d bin (p, c)) (supplied p).length = supplied p ↔
      (CaveInFile d bin (p, c) ∧ JumpFits bin.arch (p, c) ∧ BranchReaches bin.arch p.address c ∨
        ¬(CaveInFile d bin (p, c) ∧ JumpFits bin.arch (p, c)) ∧
          decodeTransfer bin.arch (content (fileImage d) (site bin.arch (p, c))) p.address = some (.jump, c)) ∧
        InFile d (caveUse d bin (p, c)) ∧
          (CaveInFile d bin (p, c) ∧ p.type ≠ .TRAMPOLINE ∨
            slice (fileImage d) (caveOffset d bin (p, c)) (supplied p).length = supplied p)) := by
    intro hneeds h
    split at h
    · cases h
    · cases h
      exact and_congr (cave_site_realised hp (hc hneeds) hneeds hown)
        (and_congr Iff.rfl (cave_code_realised hp hneeds hown))
  have hsite : p.needsCave = false → site bin.arch (p, c) = ⟨p.offset.toNat, p.orig_size⟩ := site_plain
  unfold PatchRealised PatchFits
  refine and_congr Iff.rfl ?_
  unfold patchCopies at hws
  simp only
  cases htype : p.type with
  | BYTES =>
      rw [htype] at hws
      cases hws
      rw [hsite (by simp [E9BinPatch.needsCave, htype]), ← hp.bytes htype]
      exact iff_of_true (@slice_overlay_top _ (fileImage d) [] ⟨p.offset.toNat, p.new_bytes⟩ []
        fun w hw => absurd hw List.not_mem_nil) trivial
  | NOP =>
      rw [htype] at hws
      cases hws
      rw [hsite (by simp [E9BinPatch.needsCave, htype])]
      exact nop_realised hp htype
  | INSN =>
      rw [htype] at hws
      cases hws
      rw [hsite (by simp [E9BinPatch.needsCave, htype])]
      exact insn_realised hp htype
  | CALL =>
      rw [htype] at hws
      rw [hsite (by simp [E9BinPatch.needsCave, htype])]
      refine branch_realised hws fun rest => decode_gen_call hp.target rest ?_
      rw [← hp.branch (Or.inl htype)]
      exact branch_le hws
  | JMP =>
      rw [htype] at hws
      rw [hsite (by simp [E9BinPatch.needsCave, htype])]
      exact branch_realised hws fun rest => decode_gen_jmp hp.target rest
  | TRAMPOLINE =>
      rw [htype] at hws hcave
      exact hcave (by simp [E9BinPatch.needsCave, htype]) hws
  | HOOK =>
      rw [htype] at hws hcave
      exact hcave (by simp [E9BinPatch.needsCave, htype]) hws
  | DETOUR =>
      rw [htype] at hws hcave
      exact hcave (by simp [E9BinPatch.needsCave, htype]) hws

end

/-! ### The application -/

section
variable {d : Block} {bin : E9Binary} {mem : CaveMemory}

/-- The caves that are given are caves. -/
theorem given_caves {ps : List E9BinPatch} {finder : Option E9CaveFinder} (h : ∀ f, finder = some f → CavesOf d bin f) :
    ∀ g ∈ given d bin mem ps finder, g.1.needsCave = true → g.2 ≠ 0 → IsCave d bin g.2 (g.1.hook_code.length + 32) := by
  induction ps generalizing finder with
  | nil => exact nofun
  | cons p ps ih =>
      unfold given
      cases hgive : giveCave d bin mem finder p with
      | error e => exact nofun
      | ok r =>
          obtain ⟨c, finder'⟩ := r
          obtain ⟨hcave, hleft⟩ := giveCave_caves h hgive
          intro g hg
          rcases List.mem_cons.mp hg with rfl | hg
          · exact hcave
          · exact ih hleft g hg

/-- A run that succeeds makes the copies of all patches, one after another. -/
theorem applyPatches_output {capacity : Nat} {ps : List E9BinPatch} {finder finder' : Option E9CaveFinder}
    {img img' : Nat → UInt8} (h : applyPatches d bin mem capacity ps finder img = .ok (0, finder', img')) :
    (given d bin mem ps finder).map Prod.fst = ps ∧
      (∀ g ∈ given d bin mem ps finder, patchCopies d bin g.1 g.2 = some (copiesOf d bin g)) ∧
      img' = overlay img ((given d bin mem ps finder).flatMap (copiesOf d bin)) := by
  induction ps generalizing finder img with
  | nil =>
      cases h
      exact ⟨rfl, nofun, rfl⟩
  | cons p ps ih =>
      unfold applyPatches at h
      split at h
      · cases h
      · obtain ⟨⟨c, finder₁⟩, hgive, h⟩ := of_bind h
        simp only at h
        split at h
        · cases h
        · rename_i ws hws
          split at h
          · obtain ⟨hall, hcopies, himg⟩ := ih h
            unfold given
            rw [hgive]
            simp only
            have hcopy : copiesOf d bin (p, c) = ws := by
              unfold copiesOf
              rw [hws, Option.getD_some]
            refine ⟨?_, ?_, ?_⟩
            · rw [List.map_cons, hall]
            · intro g hg
              rcases List.mem_cons.mp hg with rfl | hg
              · rw [hcopy]
                exact hws
              · exact hcopies g hg
            · rw [List.flatMap_cons, overlay_append, hcopy]
              exact himg
          · cases h

end

theorem IsCave.isWord {d : Block} {bin : E9Binary} {c : Int} {n : Nat} (h : IsCave d bin c n) : IsWord c := by
  obtain ⟨sec, -, -, k, -, hc, -⟩ := h
  rw [hc]
  exact isWord_ptr _

theorem cave_nonzero {d : Block} {bin : E9Binary} {p : E9BinPatch} {c : Int} {ws : List (Write UInt8)}
    (hneeds : p.needsCave = true) (h : patchCopies d bin p c = some ws) : c ≠ 0 := by
  have hsome : ∀ x : Option (List (Write UInt8)), (if c = 0 then none else x) = some ws → c ≠ 0 := by
    intro x hx hzero
    rw [if_pos hzero] at hx
    cases hx
  unfold patchCopies at h
  cases htype : p.type with
  | TRAMPOLINE => exact hsome _ (by rwa [htype] at h)
  | HOOK => exact hsome _ (by rwa [htype] at h)
  | DETOUR => exact hsome _ (by rwa [htype] at h)
  | BYTES => simp [E9BinPatch.needsCave, htype] at hneeds
  | NOP => simp [E9BinPatch.needsCave, htype] at hneeds
  | INSN => simp [E9BinPatch.needsCave, htype] at hneeds
  | CALL => simp [E9BinPatch.needsCave, htype] at hneeds
  | JMP => simp [E9BinPatch.needsCave, htype] at hneeds

/-- The check before the application: no two recorded ranges overlap. -/
theorem validatePatches_pairwise {ps : List E9BinPatch} (h : validatePatches ps = true) :
    ps.Pairwise fun p q => overlaps p q = false := by
  induction ps with
  | nil => exact .nil
  | cons p ps ih =>
      unfold validatePatches at h
      obtain ⟨hp, hps⟩ := Bool.and_eq_true_iff.mp h
      refine .cons (fun q hq => ?_) (ih hps)
      have := List.all_eq_true.mp hp q hq
      simpa using this

theorem sites_apart {d : Block} {arch : Arch} {g h : E9BinPatch × Int} (hg : IsWord g.1.offset) (hh : IsWord h.1.offset)
    (hoverlap : overlaps g.1 h.1 = false) (hgfile : InFile d (site arch g)) (hhfile : InFile d (site arch h))
    (hgsize : g.1.orig_size ≠ 0) (hhsize : h.1.orig_size ≠ 0) : (site arch g).Apart (site arch h) := by
  have hsize := d.size_lt
  obtain ⟨hg0, -⟩ := hg
  obtain ⟨hh0, -⟩ := hh
  unfold InFile site at hgfile hhfile
  rw [if_neg fun hc => hgsize hc.2] at hgfile
  rw [if_neg fun hc => hhsize hc.2] at hhfile
  have hno : ¬(g.1.offset < ptr (h.1.offset + h.1.orig_size) ∧ h.1.offset < ptr (g.1.offset + g.1.orig_size)) := by
    intro hc
    unfold overlaps at hoverlap
    simp [hc.1, hc.2] at hoverlap
  have hgend : ptr (g.1.offset + g.1.orig_size) = g.1.offset + g.1.orig_size := by
    unfold ptr
    simp only at hgfile
    omega
  have hhend : ptr (h.1.offset + h.1.orig_size) = h.1.offset + h.1.orig_size := by
    unfold ptr
    simp only at hhfile
    omega
  rw [hgend, hhend] at hno
  intro k hk
  obtain ⟨⟨h1, h2⟩, ⟨h3, h4⟩⟩ := hk
  unfold site at h1 h2 h3 h4
  rw [if_neg fun hc => hgsize hc.2] at h2
  rw [if_neg fun hc => hhsize hc.2] at h4
  simp only at h1 h2 h3 h4
  omega

/-- The patches of a session with their caves. -/
def E9BinPatchSession.given (s : E9BinPatchSession) (mem : CaveMemory) : List (E9BinPatch × Int) :=
  E9Patch.given s.data s.bin mem s.patches s.cave_finder

/-- The image realises every recorded patch of the session, and is the file elsewhere. -/
structure Realised (mem : CaveMemory) (s : E9BinPatchSession) (img : Nat → UInt8) : Prop where
  every : (s.given mem).map Prod.fst = s.patches
  changes : ∀ k < s.data.size, img k ≠ fileImage s.data k → ∃ g ∈ s.given mem, Occupies s.data s.bin g k
  patches : ∀ g ∈ s.given mem, PatchRealised s.data s.bin img g
  caves : ∀ g ∈ s.given mem, g.1.needsCave = true → IsCave s.data s.bin g.2 (g.1.hook_code.length + 32)
  apart : (s.given mem).Pairwise fun g h => ∀ k, ¬(Occupies s.data s.bin g k ∧ Occupies s.data s.bin h k)
  own : ∀ g ∈ s.given mem, (site s.bin.arch g).Apart (caveUse s.data s.bin g)

/-- What a session asks for: that each patch has what it asks for, and that the ranges keep clear of the caves, and
of the jumps of the patches that were recorded without a size. -/
structure Fits (mem : CaveMemory) (s : E9BinPatchSession) : Prop where
  patches : ∀ g ∈ s.given mem, PatchFits s.data s.bin g
  jumps : (s.given mem).Pairwise fun g h =>
    g.1.orig_size = 0 ∨ h.1.orig_size = 0 → (site s.bin.arch g).Apart (site s.bin.arch h)
  caves : (s.given mem).Pairwise fun g h => (site s.bin.arch g).Apart (caveUse s.data s.bin h) ∧
    (caveUse s.data s.bin g).Apart (site s.bin.arch h) ∧ (caveUse s.data s.bin g).Apart (caveUse s.data s.bin h)
  own : ∀ g ∈ s.given mem, (site s.bin.arch g).Apart (caveUse s.data s.bin g)

section
variable {mem : CaveMemory} {s s' : E9BinPatchSession}

/-- What an application that succeeds has done. -/
theorem apply_inv (hopen : s.finalized = false) (h : e9_binpatch_apply mem s = .ok (0, s')) :
    validatePatches s.patches = true ∧ ∃ finder, applyPatches s.data s.bin mem s.output_capacity s.patches
      s.cave_finder s.output = .ok (0, finder, s'.output) := by
  unfold e9_binpatch_apply at h
  rw [if_neg (by rw [hopen]; decide)] at h
  split at h
  · cases h
  · rename_i hvalid
    obtain ⟨⟨r, finder, output⟩, hrun, h⟩ := of_bind h
    have heq := Except.ok.inj h
    have hr : r = 0 := congrArg Prod.fst heq
    have hout : output = s'.output := congrArg (fun x => x.2.output) heq
    rw [hr, hout] at hrun
    refine ⟨?_, finder, hrun⟩
    unfold e9_binpatch_validate at hvalid
    by_contra hinvalid
    rw [if_neg hinvalid] at hvalid
    exact hvalid (by decide)

/-- The ranges and caves of a session that has what it asks for keep clear of each other. -/
theorem Fits.apart (hs : SessionOk s) (hvalid : validatePatches s.patches = true)
    (hall : (s.given mem).map Prod.fst = s.patches) (h : Fits mem s) :
    (s.given mem).Pairwise fun g h => ∀ k, ¬(Occupies s.data s.bin g k ∧ Occupies s.data s.bin h k) := by
  have hmem : ∀ g ∈ s.given mem, RecordedPatch s.bin.arch g.1 := by
    intro g hg
    refine hs.patches g.1 ?_
    rw [← hall]
    exact List.mem_map_of_mem hg
  have hoverlap : (s.given mem).Pairwise fun g h => overlaps g.1 h.1 = false := by
    have hpairs := validatePatches_pairwise hvalid
    rw [← hall] at hpairs
    exact List.pairwise_map.mp hpairs
  refine ((h.jumps.and h.caves).and hoverlap).imp_of_mem ?_
  rintro g g' hg hg' ⟨⟨hjumps, hsc, hcs, hcc⟩, hno⟩ k ⟨hk, hk'⟩
  have hsites : (site s.bin.arch g).Apart (site s.bin.arch g') := by
    by_cases hzero : g.1.orig_size = 0 ∨ g'.1.orig_size = 0
    · exact hjumps hzero
    · obtain ⟨hsize, hsize'⟩ := not_or.mp hzero
      exact sites_apart (hmem g hg).offset (hmem g' hg').offset hno (h.patches g hg).1 (h.patches g' hg').1 hsize hsize'
  rcases hk with hk | hk
  · rcases hk' with hk' | hk'
    · exact hsites k ⟨hk, hk'⟩
    · exact hsc k ⟨hk, hk'⟩
  · rcases hk' with hk' | hk'
    · exact hcs k ⟨hk, hk'⟩
    · exact hcc k ⟨hk, hk'⟩

/-- An application to the file that succeeds realises the recorded patches just if the session has what they ask
for. -/
theorem binpatch_realised_iff (hs : Recorded s) (hopen : s.finalized = false)
    (hfile : ∀ k < s.data.size, s.output k = fileImage s.data k) (h : e9_binpatch_apply mem s = .ok (0, s')) :
    Realised mem s s'.output ↔ Fits mem s := by
  have hok := hs.ok
  obtain ⟨hvalid, finder, hrun⟩ := apply_inv hopen h
  obtain ⟨hall, hcopies, himg⟩ := applyPatches_output hrun
  have hrecorded : ∀ g ∈ s.given mem, RecordedPatch s.bin.arch g.1 := by
    intro g hg
    refine hok.patches g.1 ?_
    rw [← hall]
    exact List.mem_map_of_mem hg
  have hcaves : ∀ g ∈ s.given mem, g.1.needsCave = true → IsCave s.data s.bin g.2 (g.1.hook_code.length + 32) :=
    fun g hg hneeds => given_caves hok.caves g hg hneeds (cave_nonzero hneeds (hcopies g hg))
  have hwithin : ∀ g ∈ s.given mem, ∀ w ∈ copiesOf s.data s.bin g, ∀ i, w.Covers i → Occupies s.data s.bin g i :=
    fun g hg w hw i hi => patchCopies_within (hrecorded g hg) (hcopies g hg) hw hi
  have hpatch : ((s.given mem).Pairwise fun g h => ∀ k, ¬(Occupies s.data s.bin g k ∧ Occupies s.data s.bin h k)) →
      ∀ g ∈ s.given mem, (site s.bin.arch g).Apart (caveUse s.data s.bin g) →
        (PatchRealised s.data s.bin s'.output g ↔ PatchFits s.data s.bin g) := by
    intro hapart g hg hown
    have hsame : ∀ k < s.data.size, Occupies s.data s.bin g k →
        s'.output k = overlay (fileImage s.data) (copiesOf s.data s.bin g) k := by
      intro k hsize hk
      rw [himg]
      exact (overlay_own hwithin hapart hg hk _).trans (overlay_congr _ (hfile k hsize))
    rw [patchRealised_congr hsame]
    exact patch_realised_iff (hrecorded g hg) (fun hneeds => (hcaves g hg hneeds).isWord) hown (hcopies g hg)
  constructor
  · intro hr
    refine ⟨fun g hg => (hpatch hr.apart g hg (hr.own g hg)).mp (hr.patches g hg), ?_, ?_, hr.own⟩
    · exact hr.apart.imp fun hoccupy _ k hk => hoccupy k ⟨Or.inl hk.1, Or.inl hk.2⟩
    · refine hr.apart.imp fun hoccupy => ⟨fun k hk => ?_, fun k hk => ?_, fun k hk => ?_⟩
      · exact hoccupy k ⟨Or.inl hk.1, Or.inr hk.2⟩
      · exact hoccupy k ⟨Or.inr hk.1, Or.inl hk.2⟩
      · exact hoccupy k ⟨Or.inr hk.1, Or.inr hk.2⟩
  · intro hf
    have hapart := hf.apart hok hvalid hall
    refine ⟨hall, fun k hsize hk => ?_, fun g hg => (hpatch hapart g hg (hf.own g hg)).mpr (hf.patches g hg), hcaves, hapart,
      hf.own⟩
    rw [himg, ← hfile k hsize] at hk
    exact overlay_changes hwithin hk

end

/-- A file of 64 bytes: a five-byte jump, `pushq %rbp`, and no-operations. -/
def hookFile : Block :=
  ⟨[0x7f, 0xe9, 0, 0, 0, 0, 0x55, 0xc3] ++ List.replicate 56 0x90, by decide⟩

/-- The file as one executable section. -/
def hookBinary : E9Binary :=
  { E9Binary.zero with arch := .X86_64, base_address := 0x1000, sections := [⟨0x1000, 64, 4, []⟩] }

/-- A session with one hook. -/
def hookSession (addr : Int) : E9BinPatchSession :=
  ((e9_binpatch_session_create hookFile hookBinary).e9_binpatch_hook addr [0xc3]).2

def hookMemory : CaveMemory := ⟨true, fun _ => true⟩

/-- The session after its application. -/
def applied (mem : CaveMemory) (s : E9BinPatchSession) : E9BinPatchSession :=
  match e9_binpatch_apply mem s with
  | .ok (_, s) => s
  | .error _ => s

/-- What the application returns. -/
def applyResult (mem : CaveMemory) (s : E9BinPatchSession) : Option Int :=
  match e9_binpatch_apply mem s with
  | .ok (r, _) => some r
  | .error _ => none

theorem apply_of_result {mem : CaveMemory} {s : E9BinPatchSession} {r : Int} (h : applyResult mem s = some r) :
    e9_binpatch_apply mem s = .ok (r, applied mem s) := by
  unfold applyResult at h
  unfold applied
  split at h
  · rename_i s' heq
    rw [heq, Option.some.inj h]
  · cases h

theorem hookSession_recorded {addr : Int} (haddr : IsWord addr) : Recorded (hookSession addr) :=
  (Recorded.create hookFile hookBinary).hook haddr [0xc3]

/-- A hook at the jump. -/
theorem hook_jump_realised : ∃ s', e9_binpatch_apply hookMemory (hookSession 0x1001) = .ok (0, s') ∧
    (Realised hookMemory (hookSession 0x1001) s'.output ↔ Fits hookMemory (hookSession 0x1001)) :=
  have happly := @apply_of_result hookMemory (hookSession 0x1001) 0 (by decide)
  ⟨_, happly, binpatch_realised_iff (hookSession_recorded (by unfold IsWord; decide)) (by decide)
    (by decide) happly⟩

/-- A hook at `pushq %rbp`: the application succeeds, and there is no jump. -/
theorem hook_push_lost : ¬∀ mem s s', Recorded s → s.finalized = false →
    (∀ k < s.data.size, s.output k = fileImage s.data k) → e9_binpatch_apply mem s = .ok (0, s') →
      Realised mem s s'.output := by
  intro h
  have happly := @apply_of_result hookMemory (hookSession 0x1006) 0 (by decide)
  have hr := h hookMemory _ _ (hookSession_recorded (by unfold IsWord; decide)) (by decide) (by decide) happly
  have hg : (⟨.HOOK, 0x1006, 6, 1, [], 0, 0, [0xc3]⟩, 0x1008) ∈ (hookSession 0x1006).given hookMemory := by decide
  obtain ⟨-, hjump, -⟩ := hr.patches _ hg
  have hnone : decodeTransfer .X86_64 (content (applied hookMemory (hookSession 0x1006)).output ⟨6, 1⟩) 0x1006 = none := by
    decide
  exact absurd (hnone.symm.trans hjump) nofun

end E9Patch
