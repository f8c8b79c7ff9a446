import E9Patch.BinPatchTheorems
import E9Patch.CaveAlloc

/-!
What an application of a session leaves that fails. The patches before the one that fails are in the output,
and the caves that they were given, and those that were found for them, stay given and found.
-/

namespace E9Patch
open Reader Overlay

/-- The free ranges of the caves. -/
def freeRanges (finder : Option E9CaveFinder) : List (Int × Nat) :=
  (finder.elim [] E9CaveFinder.caves).map fun cave => (cave.address, cave.size)

/-- The session is as it was, in the output and its size and in the free ranges. -/
structure SessionUnchanged (s s' : E9BinPatchSession) : Prop where
  output : s'.output = s.output
  size : s'.output_size = s.output_size
  ranges : freeRanges s'.cave_finder = freeRanges s.cave_finder

section
variable (d : Block) (bin : E9Binary) (capacity : Nat)

/-- The patch is inside the buffer of the output. -/
def hasRoom (p : E9BinPatch) : Bool := ptr (p.offset + p.new_size) ≤ capacity

/-- The patch is applied, and without a cave. -/
def appliedAlone (p : E9BinPatch) : Bool := hasRoom capacity p && !p.needsCave && (patchCopies d bin p 0).isSome

/-- What is copied by the patches before the first that needs a cave or cannot be applied. -/
def copiesAlone (ps : List E9BinPatch) : List (Write UInt8) :=
  (ps.takeWhile (appliedAlone d bin capacity)).flatMap fun p => (patchCopies d bin p 0).getD []

end

/-- A patch that needs a cave leaves the caves as they are: there is none with room for it, or, where none have
been searched for, none at all. -/
def LeavesCaves (mem : CaveMemory) (s : E9BinPatchSession) (p : E9BinPatch) : Prop :=
  match s.cave_finder with
  | some f => NoRoom f (p.hook_code.length + 32)
  | none => ∀ r f, e9_caves_find s.data s.bin mem none 16 = .ok (r, some f) → f.caves = []

/-- The patches overlap, or those before the first that needs a cave or cannot be applied write only what is in
the output, and that one, if it asks for a cave, leaves the caves as they are. -/
def FailsClean (mem : CaveMemory) (s : E9BinPatchSession) : Prop :=
  validatePatches s.patches = false ∨
    overlay s.output (copiesAlone s.data s.bin s.output_capacity s.patches) = s.output ∧
      ∀ p, (s.patches.dropWhile (appliedAlone s.data s.bin s.output_capacity)).head? = some p →
        hasRoom s.output_capacity p = true → p.needsCave = true → LeavesCaves mem s p

section
variable {d : Block} {bin : E9Binary} {mem : CaveMemory} {capacity : Nat}

/-! ### What is never given back -/

/-- The finder has as many caves, and no more of them is free. -/
def Shrinks (finder finder' : Option E9CaveFinder) : Prop :=
  ∀ f, finder = some f → ∃ f', finder' = some f' ∧ f'.caves.length = f.caves.length ∧ f'.free ≤ f.free

theorem Shrinks.refl (finder : Option E9CaveFinder) : Shrinks finder finder :=
  fun f hf => ⟨f, hf, rfl, Nat.le_refl _⟩

theorem Shrinks.trans {f₁ f₂ f₃ : Option E9CaveFinder} (h : Shrinks f₁ f₂) (h' : Shrinks f₂ f₃) : Shrinks f₁ f₃ := by
  intro f hf
  obtain ⟨g, hg, hlen, hfree⟩ := h f hf
  obtain ⟨g', hg', hlen', hfree'⟩ := h' g hg
  exact ⟨g', hg', hlen'.trans hlen, Nat.le_trans hfree' hfree⟩

theorem alloc_shrinks (finder : Option E9CaveFinder) (size : Nat) : Shrinks finder (e9_caves_alloc finder size).2 := by
  rintro f rfl
  rcases caves_alloc_cases f size with ⟨-, halloc⟩ | ⟨i, cave, hgives⟩
  · rw [halloc]
    exact ⟨f, rfl, rfl, Nat.le_refl _⟩
  · have hfree := hgives.free
    rw [hgives.alloc]
    exact ⟨_, rfl, List.length_set, by omega⟩

theorem giveCave_shrinks {finder finder' : Option E9CaveFinder} {p : E9BinPatch} {c : Int}
    (h : giveCave d bin mem finder p = .ok (c, finder')) : Shrinks finder finder' := by
  unfold giveCave at h
  split at h
  · obtain ⟨finder₁, h₁, h⟩ := of_bind h
    have heq := Except.ok.inj h
    rintro f rfl
    have hsame : finder₁ = some f := (Except.ok.inj h₁).symm
    have hshrinks := alloc_shrinks finder₁ (p.hook_code.length + 32)
    rw [heq] at hshrinks
    exact hshrinks f hsame
  · cases h
    exact Shrinks.refl _

theorem applyPatches_shrinks {ps : List E9BinPatch} {finder finder' : Option E9CaveFinder} {img img' : Nat → UInt8}
    {r : Int} (h : applyPatches d bin mem capacity ps finder img = .ok (r, finder', img')) : Shrinks finder finder' := by
  induction ps generalizing finder img with
  | nil =>
      cases h
      exact Shrinks.refl _
  | cons p ps ih =>
      unfold applyPatches at h
      split at h
      · cases h
        exact Shrinks.refl _
      · obtain ⟨⟨c, finder₁⟩, hgive, h⟩ := of_bind h
        have hshrinks := giveCave_shrinks hgive
        simp only at h
        split at h
        · cases h
          exact hshrinks
        · split at h
          · exact hshrinks.trans (ih h)
          · cases h

/-- What is free is told by the ranges. -/
theorem free_of_ranges {f f' : E9CaveFinder} (h : freeRanges (some f) = freeRanges (some f')) : f.free = f'.free := by
  have hsizes := congrArg (List.map Prod.snd) h
  simp only [freeRanges, Option.elim_some, List.map_map] at hsizes
  exact congrArg List.sum hsizes

/-- Once a cave has given something away, the ranges are never again what they were. -/
theorem ranges_changed {f : E9CaveFinder} {size i : Nat} {cave : E9CodeCave} (hgives : Gives f size i cave)
    (hsize : 0 < size) {finder : Option E9CaveFinder} (h : Shrinks (e9_caves_alloc (some f) size).2 finder) :
    freeRanges finder ≠ freeRanges (some f) ∧ freeRanges finder ≠ [] := by
  have hfree := hgives.free
  rw [hgives.alloc] at h
  obtain ⟨f', rfl, hlen, hle⟩ := h _ rfl
  refine ⟨fun heq => ?_, fun heq => ?_⟩
  · have hsame := free_of_ranges heq
    omega
  · have hnil : f'.caves.length = 0 := by
      have := congrArg List.length heq
      simpa [freeRanges] using this
    have hlt := hgives.lt
    simp only [List.length_set] at hlen
    omega

/-! ### The run up to the first patch that needs a cave or cannot be applied -/

theorem hasRoom_iff {p : E9BinPatch} : hasRoom capacity p = true ↔ ¬ptr (p.offset + p.new_size) > capacity := by
  rw [hasRoom, decide_eq_true_iff]
  exact Int.not_lt.symm

/-- A patch that needs no cave is given none. -/
theorem giveCave_none {p : E9BinPatch} (hneeds : p.needsCave = false) (finder : Option E9CaveFinder) :
    giveCave d bin mem finder p = .ok (0, finder) := by
  unfold giveCave
  rw [hneeds]
  rfl

/-- A failing run goes through the patches that are applied alone. -/
theorem applyPatches_alone {ps : List E9BinPatch} {finder finder' : Option E9CaveFinder} {img img' : Nat → UInt8}
    (h : applyPatches d bin mem capacity ps finder img = .ok (-1, finder', img')) :
    ∃ p rest, ps.dropWhile (appliedAlone d bin capacity) = p :: rest ∧ appliedAlone d bin capacity p = false ∧
      applyPatches d bin mem capacity (p :: rest) finder (overlay img (copiesAlone d bin capacity ps)) =
        .ok (-1, finder', img') := by
  induction ps generalizing img with
  | nil => cases h
  | cons p ps ih =>
      cases halone : appliedAlone d bin capacity p with
      | false =>
          refine ⟨p, ps, ?_, halone, ?_⟩
          · rw [List.dropWhile_cons_of_neg (by simp [halone])]
          · rw [copiesAlone, List.takeWhile_cons_of_neg (by simp [halone])]
            exact h
      | true =>
          have halone' := halone
          unfold appliedAlone at halone'
          simp only [Bool.and_eq_true, Bool.not_eq_true'] at halone'
          obtain ⟨⟨hroom, hneeds⟩, hcopies⟩ := halone'
          obtain ⟨copies, hcopies⟩ := Option.isSome_iff_exists.mp hcopies
          unfold applyPatches at h
          rw [if_neg (hasRoom_iff.mp hroom), giveCave_none hneeds, ok_bind] at h
          simp only [hcopies] at h
          split at h
          · obtain ⟨q, rest, hdrop, hq, hrun⟩ := ih h
            refine ⟨q, rest, ?_, hq, ?_⟩
            · rw [List.dropWhile_cons_of_pos halone]
              exact hdrop
            · rw [copiesAlone, List.takeWhile_cons_of_pos halone, List.flatMap_cons, overlay_append, hcopies]
              exact hrun
          · cases h

/-! ### The patch that fails -/

theorem patchCopies_none {p : E9BinPatch} (hcave : p.needsCave = true) : patchCopies d bin p 0 = none := by
  unfold E9BinPatch.needsCave at hcave
  unfold patchCopies
  cases htype : p.type <;> simp [htype] at hcave ⊢

/-- Without a cave the patch fails at once. -/
theorem fails_alone {p : E9BinPatch} {rest : List E9BinPatch} (halone : appliedAlone d bin capacity p = false)
    (hcave : hasRoom capacity p = true → p.needsCave = false) {finder finder' : Option E9CaveFinder}
    {img img' : Nat → UInt8} (h : applyPatches d bin mem capacity (p :: rest) finder img = .ok (-1, finder', img')) :
    finder' = finder ∧ img' = img := by
  unfold applyPatches at h
  by_cases hroom : ptr (p.offset + p.new_size) > capacity
  · rw [if_pos hroom] at h
    cases h
    exact ⟨rfl, rfl⟩
  · have hroom' := hasRoom_iff.mpr hroom
    have hneeds := hcave hroom'
    have hcopies : patchCopies d bin p 0 = none := by
      simpa [appliedAlone, hroom', hneeds] using halone
    rw [if_neg hroom, giveCave_none hneeds, ok_bind] at h
    simp only [hcopies] at h
    cases h
    exact ⟨rfl, rfl⟩

/-- With a cave finder: no room for the cave, and the patch fails at once, or the cave is given for good. -/
theorem fails_caves {p : E9BinPatch} {rest : List E9BinPatch} (hroom : hasRoom capacity p = true)
    (hcave : p.needsCave = true) {finder finder' : Option E9CaveFinder} {f : E9CaveFinder}
    (hfinder : finderFor d bin mem finder = .ok (some f)) {img img' : Nat → UInt8}
    (h : applyPatches d bin mem capacity (p :: rest) finder img = .ok (-1, finder', img')) :
    NoRoom f (p.hook_code.length + 32) ∧ finder' = some f ∧ img' = img ∨
      ¬NoRoom f (p.hook_code.length + 32) ∧ freeRanges finder' ≠ freeRanges (some f) ∧ freeRanges finder' ≠ [] := by
  have hgive : giveCave d bin mem finder p = .ok (e9_caves_alloc (some f) (p.hook_code.length + 32)) := by
    unfold giveCave
    rw [if_pos hcave, hfinder, ok_bind]
  unfold applyPatches at h
  rw [if_neg (hasRoom_iff.mp hroom), hgive, ok_bind] at h
  rcases caves_alloc_cases f (p.hook_code.length + 32) with ⟨hnone, halloc⟩ | ⟨i, cave, hgives⟩
  · rw [halloc] at h
    simp only [patchCopies_none hcave] at h
    cases h
    exact Or.inl ⟨hnone, rfl, rfl⟩
  · have hfits : ¬NoRoom f (p.hook_code.length + 32) := by
      intro hnone
      have hlt := hnone cave (List.mem_of_getElem? hgives.get)
      have hle := hgives.room
      omega
    have hshrinks : Shrinks (e9_caves_alloc (some f) (p.hook_code.length + 32)).2 finder' := by
      simp only at h
      split at h
      · cases h
        exact Shrinks.refl _
      · split at h
        · exact applyPatches_shrinks h
        · cases h
    exact Or.inr ⟨hfits, ranges_changed hgives (Nat.succ_pos _) hshrinks⟩

end

section
variable {mem : CaveMemory} {s s' : E9BinPatchSession}

/-- The caves that were searched for are part of what is free. -/
theorem fails_search {p : E9BinPatch} {rest : List E9BinPatch} (hroom : hasRoom s.output_capacity p = true)
    (hcave : p.needsCave = true) {finder' : Option E9CaveFinder} {img img' : Nat → UInt8}
    (h : applyPatches s.data s.bin mem s.output_capacity (p :: rest) s.cave_finder img = .ok (-1, finder', img')) :
    LeavesCaves mem s p ∧ freeRanges finder' = freeRanges s.cave_finder ∧ img' = img ∨
      ¬LeavesCaves mem s p ∧ freeRanges finder' ≠ freeRanges s.cave_finder := by
  unfold LeavesCaves
  cases hfinder : s.cave_finder with
  | some f =>
      rw [hfinder] at h
      rcases fails_caves hroom hcave rfl h with ⟨hnone, rfl, himg⟩ | ⟨hfits, hranges, -⟩
      · exact Or.inl ⟨hnone, rfl, himg⟩
      · exact Or.inr ⟨hfits, hranges⟩
  | none =>
      rw [hfinder] at h
      cases hfind : e9_caves_find s.data s.bin mem none 16 with
      | error e =>
          unfold applyPatches giveCave finderFor at h
          rw [if_neg (hasRoom_iff.mp hroom), if_pos hcave, hfind] at h
          cases h
      | ok found =>
          obtain ⟨r, finder₁⟩ := found
          have hfor : finderFor s.data s.bin mem none = .ok finder₁ := by
            unfold finderFor
            rw [hfind]
            rfl
          cases finder₁ with
          | none =>
              unfold applyPatches giveCave at h
              rw [if_neg (hasRoom_iff.mp hroom), if_pos hcave, hfor] at h
              simp only [ok_bind, e9_caves_alloc, patchCopies_none hcave] at h
              cases h
              exact Or.inl ⟨fun r f hf => (by cases hf), rfl, rfl⟩
          | some f =>
              rcases fails_caves hroom hcave hfor h with ⟨hnone, rfl, himg⟩ | ⟨hfits, -, hranges⟩
              · by_cases hcaves : f.caves = []
                · refine Or.inl ⟨fun r' f' hf' => ?_, ?_, himg⟩
                  · cases hf'
                    exact hcaves
                  · simp [freeRanges, hcaves]
                · refine Or.inr ⟨fun hleaves => hcaves (hleaves r f rfl), ?_⟩
                  simpa [freeRanges] using hcaves
              · refine Or.inr ⟨fun hleaves => hfits fun cave hmem => ?_, hranges⟩
                rw [hleaves r f rfl] at hmem
                cases hmem

/-- An application that fails changes nothing exactly if the patches before the failing one write what is there,
and that one leaves the caves as they are. -/
theorem apply_atomic_iff (h : e9_binpatch_apply mem s = .ok (-1, s')) : SessionUnchanged s s' ↔ FailsClean mem s := by
  unfold e9_binpatch_apply at h
  split at h
  · cases h
  · unfold e9_binpatch_validate at h
    cases hvalid : validatePatches s.patches with
    | false =>
        rw [hvalid] at h
        cases h
        exact ⟨fun _ => Or.inl hvalid, fun _ => ⟨rfl, rfl, rfl⟩⟩
    | true =>
        rw [hvalid] at h
        simp only [if_true, Int.lt_irrefl, if_false] at h
        obtain ⟨⟨r, finder, img⟩, hrun, h⟩ := of_bind h
        simp only [Except.ok.injEq, Prod.mk.injEq] at h
        obtain ⟨rfl, rfl⟩ := h
        obtain ⟨p, rest, hdrop, halone, hfail⟩ := applyPatches_alone hrun
        unfold FailsClean
        rw [hdrop, List.head?_cons]
        simp only [hvalid, Option.some.injEq, forall_eq', reduceCtorEq, false_or]
        by_cases hcave : hasRoom s.output_capacity p = true ∧ p.needsCave = true
        · rcases fails_search hcave.1 hcave.2 hfail with ⟨hleaves, hranges, rfl⟩ | ⟨hleaves, hranges⟩
          · exact ⟨fun hsame => ⟨hsame.output, fun _ _ => hleaves⟩, fun hclean => ⟨hclean.1, rfl, hranges⟩⟩
          · exact ⟨fun hsame => absurd hsame.ranges hranges, fun hclean => absurd (hclean.2 hcave.1 hcave.2) hleaves⟩
        · have hneeds : hasRoom s.output_capacity p = true → p.needsCave = false := by
            intro hroom
            cases hneeds : p.needsCave with
            | false => rfl
            | true => exact absurd ⟨hroom, hneeds⟩ hcave
          obtain ⟨rfl, rfl⟩ := fails_alone halone hneeds hfail
          refine ⟨fun hsame => ⟨hsame.output, fun hroom hneeded => ?_⟩, fun hclean => ⟨hclean.1, rfl, rfl⟩⟩
          rw [hneeds hroom] at hneeded
          cases hneeded

end

/-- A session with a patched byte, and with a call that is farther than five bytes reach. -/
def callSession : E9BinPatchSession :=
  (((e9_binpatch_session_create hookFile hookBinary).e9_binpatch_bytes 0x1008 [0xcc]).2.e9_binpatch_call
    0x1010 0x7f00000000).2

theorem callSession_recorded : Recorded callSession :=
  ((Recorded.create hookFile hookBinary).bytes (by unfold IsWord; decide) [0xcc]).call (by unfold IsWord; decide)
    (by unfold IsWord; decide)

/-- The call is too far, and the byte stays patched. -/
theorem callSession_fails : e9_binpatch_apply hookMemory callSession = .ok (-1, applied hookMemory callSession) ∧
    (SessionUnchanged callSession (applied hookMemory callSession) ↔ FailsClean hookMemory callSession) :=
  have happly := @apply_of_result hookMemory callSession (-1) (by decide)
  ⟨happly, apply_atomic_iff happly⟩

theorem failed_call_patches : ¬∀ mem s s', Recorded s → e9_binpatch_apply mem s = .ok (-1, s') → SessionUnchanged s s' := by
  intro h
  have happly := @apply_of_result hookMemory callSession (-1) (by decide)
  have hsame := congrFun (h hookMemory _ _ callSession_recorded happly).output 8
  have hbyte : (applied hookMemory callSession).output 8 ≠ callSession.output 8 := by decide
  exact hbyte hsame

end E9Patch
