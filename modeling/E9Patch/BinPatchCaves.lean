import E9Patch.BinPatchCode

/-!
The code caves of the in-place editor. What the search finds, and what is left of it when parts were given
away, are runs of unused bytes in executable sections of the file.
-/

namespace E9Patch
open Reader Bytes

variable {d : Block} {bin : E9Binary}

/-- The byte at index `k` of the section at `sec_offset` is unused. -/
def UnusedAt (d : Block) (arch : Arch) (sec_offset : Int) (k : Nat) : Prop :=
  if arch = .AARCH64 then ∃ i, i ≤ k ∧ k < i + 4 ∧ d.word (ptr (sec_offset + i)) 4 = 0xD503201F
  else d.word (ptr (sec_offset + k)) 1 = 0x00 ∨ d.word (ptr (sec_offset + k)) 1 = 0x90 ∨
    d.word (ptr (sec_offset + k)) 1 = 0xCC

/-- The `n` bytes at an address are unused, and part of an executable section. -/
def IsCave (d : Block) (bin : E9Binary) (addr : Int) (n : Nat) : Prop :=
  ∃ sec ∈ bin.sections, sec.flags &&& E9_SECFLAG_EXEC ≠ 0 ∧ ∃ k : Nat, k + n ≤ sec.size ∧ addr = ptr (sec.addr + k) ∧
    ∀ j < n, UnusedAt d bin.arch (e9_binpatch_vaddr_to_offset d bin sec.addr) (k + j)

theorem IsCave.mono {addr : Int} {n m : Nat} (h : IsCave d bin addr n) (hm : m ≤ n) : IsCave d bin addr m := by
  obtain ⟨sec, hsec, hexec, k, hk, haddr, hunused⟩ := h
  exact ⟨sec, hsec, hexec, k, by omega, haddr, fun j hj => hunused j (by omega)⟩

/-- What is behind the first `m` bytes of a cave. -/
theorem IsCave.tail {addr : Int} {n m : Nat} (h : IsCave d bin addr n) (hm : m ≤ n) :
    IsCave d bin (ptr (addr + m)) (n - m) := by
  obtain ⟨sec, hsec, hexec, k, hk, haddr, hunused⟩ := h
  refine ⟨sec, hsec, hexec, k + m, by omega, ?_, fun j hj => ?_⟩
  · rw [haddr]
    unfold ptr
    omega
  · rw [Nat.add_assoc]
    exact hunused (m + j) (by omega)

/-- All caves of a finder are caves. -/
def CavesOf (d : Block) (bin : E9Binary) (f : E9CaveFinder) : Prop :=
  ∀ cave ∈ f.caves, IsCave d bin cave.address cave.size

/-! ### The search -/

/-- The run that the loop over a section is in, which ends at index `i`. -/
structure RunOf (d : Block) (bin : E9Binary) (sec : SectionInfo) (i : Nat) (st : CaveScan) : Prop where
  caves : CavesOf d bin st.finder
  ends : st.in_run = true → st.run_start + st.run_len = i ∧ i ≤ sec.size
  unused : st.in_run = true → ∀ j < st.run_len,
    UnusedAt d bin.arch (e9_binpatch_vaddr_to_offset d bin sec.addr) (st.run_start + j)

theorem unusedAt_spec {arch : Arch} {sec_offset : Int} {size i n : Nat} (h : unusedAt d arch sec_offset size i = .ok n)
    (hi : i < size) : i + n ≤ size ∧ ∀ j < n, UnusedAt d arch sec_offset (i + j) := by
  unfold unusedAt at h
  unfold UnusedAt
  split at h
  · split at h
    · rename_i hword
      obtain ⟨insn, hinsn, h⟩ := of_bind h
      have hinsn := read_eq hinsn
      cases h
      split
      · rename_i hnop
        refine ⟨hword.2, fun j hj => ?_⟩
        exact ⟨i, by omega, by omega, hinsn.symm.trans hnop⟩
      · exact ⟨by omega, fun j hj => by omega⟩
    · cases h
      exact ⟨by omega, fun j hj => by omega⟩
  · obtain ⟨b, hb, h⟩ := of_bind h
    have hb := read_eq hb
    cases h
    split
    · rename_i hunused
      refine ⟨by omega, fun j hj => ?_⟩
      rw [show j = 0 by omega, Nat.add_zero, ← hb]
      exact hunused
    · exact ⟨by omega, fun j hj => by omega⟩

section
variable {sec : SectionInfo} {st : CaveScan} {i : Nat}

/-- The cave at the end of a run. -/
theorem RunOf.cave (h : RunOf d bin sec i st) (hsec : sec ∈ bin.sections) (hexec : sec.flags &&& E9_SECFLAG_EXEC ≠ 0)
    (hrun : st.in_run = true) (s : Nat) :
    IsCave d bin (st.cave sec (e9_binpatch_vaddr_to_offset d bin sec.addr) s).address
      (st.cave sec (e9_binpatch_vaddr_to_offset d bin sec.addr) s).size := by
  obtain ⟨hends, hsize⟩ := h.ends hrun
  exact ⟨sec, hsec, hexec, st.run_start, by simp only [CaveScan.cave]; omega, rfl, h.unused hrun⟩

theorem RunOf.extend (h : RunOf d bin sec i st) {n : Nat} (hn : i + n ≤ sec.size)
    (hunused : ∀ j < n, UnusedAt d bin.arch (e9_binpatch_vaddr_to_offset d bin sec.addr) (i + j)) :
    RunOf d bin sec (i + n) (st.extend i n) := by
  unfold CaveScan.extend
  split
  · rename_i hrun
    obtain ⟨hends, -⟩ := h.ends hrun
    refine ⟨h.caves, fun _ => ⟨by simp only; omega, hn⟩, fun _ j hj => ?_⟩
    simp only at hj ⊢
    by_cases hold : j < st.run_len
    · exact h.unused hrun j hold
    · have := hunused (j - st.run_len) (by omega)
      rwa [show i + (j - st.run_len) = st.run_start + j by omega] at this
  · exact ⟨h.caves, fun _ => ⟨rfl, hn⟩, fun _ => hunused⟩

theorem CavesOf.add {f : E9CaveFinder} (h : CavesOf d bin f) {cave : E9CodeCave}
    (hcave : IsCave d bin cave.address cave.size) : CavesOf d bin (f.add cave) := by
  intro c hc
  rcases List.mem_append.mp hc with hc | hc
  · exact h c hc
  · rw [List.mem_singleton.mp hc]
    exact hcave

theorem reserve_caves {f f' : E9CaveFinder} {mem : CaveMemory} (h : f.reserve mem = some f') : f'.caves = f.caves := by
  unfold E9CaveFinder.reserve at h
  split at h
  · split at h
    · cases h
      rfl
    · cases h
  · cases h
    rfl

theorem RunOf.endRun (h : RunOf d bin sec i st) (hsec : sec ∈ bin.sections)
    (hexec : sec.flags &&& E9_SECFLAG_EXEC ≠ 0) {mem : CaveMemory} {s : Nat} {st' : CaveScan}
    (hend : st.endRun mem sec (e9_binpatch_vaddr_to_offset d bin sec.addr) s = some st') :
    RunOf d bin sec (i + 1) st' := by
  unfold CaveScan.endRun at hend
  split at hend
  · rename_i hrun
    split at hend
    · obtain ⟨f, hf, rfl⟩ := Option.map_eq_some_iff.mp hend
      have hcaves : CavesOf d bin f := by
        intro c hc
        rw [reserve_caves hf] at hc
        exact h.caves c hc
      exact ⟨hcaves.add (h.cave hsec hexec hrun s), nofun, nofun⟩
    · cases hend
      exact ⟨h.caves, nofun, nofun⟩
  · rename_i hrun
    cases hend
    exact ⟨h.caves, fun hc => absurd hc hrun, fun hc => absurd hc hrun⟩

/-- The loop over a section keeps to it. -/
theorem RunOf.scan {mem : CaveMemory} {s fuel : Nat} (hsec : sec ∈ bin.sections)
    (hexec : sec.flags &&& E9_SECFLAG_EXEC ≠ 0) {ok : Bool} {st' : CaveScan} (h : RunOf d bin sec i st)
    (hscan : scanSection d bin.arch mem sec (e9_binpatch_vaddr_to_offset d bin sec.addr) s fuel i st = .ok (ok, st')) :
    ∃ i', RunOf d bin sec i' st' := by
  induction fuel generalizing i st with
  | zero =>
      cases hscan
      exact ⟨i, h⟩
  | succ fuel ih =>
      unfold scanSection at hscan
      split at hscan
      · rename_i hi
        obtain ⟨n, hn, hscan⟩ := of_bind hscan
        obtain ⟨hsize, hunused⟩ := unusedAt_spec hn hi
        split at hscan
        · exact ih (h.extend hsize hunused) hscan
        · cases hend : st.endRun mem sec (e9_binpatch_vaddr_to_offset d bin sec.addr) s with
          | none =>
              rw [hend] at hscan
              cases hscan
              exact ⟨i, h⟩
          | some st₁ =>
              rw [hend] at hscan
              exact ih (h.endRun hsec hexec hend) hscan
      · cases hscan
        exact ⟨i, h⟩

end

theorem CavesOf.findInSection {mem : CaveMemory} {sec : SectionInfo} {s : Nat} {f f' : E9CaveFinder} {ok : Bool}
    (h : CavesOf d bin f) (hsec : sec ∈ bin.sections) (hfind : findInSection d bin mem sec s f = .ok (ok, f')) :
    CavesOf d bin f' := by
  unfold E9Patch.findInSection at hfind
  split at hfind
  · cases hfind
    exact h
  · rename_i hexec
    simp only at hfind
    split at hfind
    · cases hfind
      exact h
    · obtain ⟨⟨ok', st⟩, hscan, hfind⟩ := of_bind hfind
      have hstart : RunOf d bin sec 0 ⟨false, 0, 0, f⟩ := ⟨h, nofun, nofun⟩
      obtain ⟨i, hrun⟩ := RunOf.scan hsec hexec hstart hscan
      cases hfind
      split
      · unfold CaveScan.finish
        split
        · rename_i hkeep
          exact hrun.caves.add (hrun.cave hsec hexec hkeep.1 s)
        · exact hrun.caves
      · exact hrun.caves

theorem CavesOf.findInSections {mem : CaveMemory} {secs : List SectionInfo} {s : Nat} {f f' : E9CaveFinder} {ok : Bool}
    (h : CavesOf d bin f) (hsecs : ∀ sec ∈ secs, sec ∈ bin.sections)
    (hfind : findInSections d bin mem secs s f = .ok (ok, f')) : CavesOf d bin f' := by
  induction secs generalizing s f with
  | nil =>
      cases hfind
      exact h
  | cons sec secs ih =>
      unfold E9Patch.findInSections at hfind
      obtain ⟨⟨ok₁, f₁⟩, h₁, hfind⟩ := of_bind hfind
      have hf₁ := h.findInSection (hsecs sec List.mem_cons_self) h₁
      simp only at hfind
      split at hfind
      · exact ih hf₁ (fun sec hs => hsecs sec (List.mem_cons_of_mem _ hs)) hfind
      · cases hfind
        exact hf₁

/-- What the search leaves are caves. -/
theorem caves_find_caves {mem : CaveMemory} {finder : Option E9CaveFinder} {min_size : Nat} {r : Int} {f : E9CaveFinder}
    (h : e9_caves_find d bin mem finder min_size = .ok (r, some f)) : CavesOf d bin f := by
  unfold e9_caves_find at h
  split at h
  · cases h
  · rename_i f₀ _
    obtain ⟨⟨ok, f'⟩, hfind, h⟩ := of_bind h
    have hnone : CavesOf d bin { f₀ with caves := [] } := fun cave hc => by cases hc
    have hcaves := hnone.findInSections (fun sec hs => hs) hfind
    cases h
    exact hcaves

/-! ### Allocation -/

/-- The cave that is chosen is one of those that were looked at, and is large enough. -/
theorem bestCave_mem {size : Nat} {caves : List E9CodeCave} {i j : Nat} {best : Option (Nat × E9CodeCave)}
    {cave : E9CodeCave} (h : bestCave size caves i best = some (j, cave)) :
    best = some (j, cave) ∨ cave ∈ caves ∧ size ≤ cave.size := by
  induction caves generalizing i best with
  | nil => exact Or.inl h
  | cons c caves ih =>
      unfold bestCave at h
      rcases ih h with h | ⟨h, hsize⟩
      · split at h
        · rename_i hfit
          cases h
          exact Or.inr ⟨List.mem_cons_self, hfit.1⟩
        · exact Or.inl h
      · exact Or.inr ⟨List.mem_cons_of_mem _ h, hsize⟩

/-- An allocation gives the start of a cave, and leaves caves. -/
theorem caves_alloc_caves {finder : Option E9CaveFinder} (h : ∀ f, finder = some f → CavesOf d bin f) (size : Nat) :
    ((e9_caves_alloc finder size).1 ≠ 0 → IsCave d bin (e9_caves_alloc finder size).1 size) ∧
      ∀ f, (e9_caves_alloc finder size).2 = some f → CavesOf d bin f := by
  unfold e9_caves_alloc
  cases finder with
  | none => exact ⟨fun hne => absurd rfl hne, nofun⟩
  | some f =>
      have hcaves := h f rfl
      simp only
      cases hbest : bestCave size f.caves 0 none with
      | none => exact ⟨fun hne => absurd rfl hne, fun f' hf' => (Option.some.inj hf') ▸ hcaves⟩
      | some b =>
          obtain ⟨i, best⟩ := b
          rcases bestCave_mem hbest with hnone | ⟨hmem, hsize⟩
          · cases hnone
          · have hcave := hcaves best hmem
            refine ⟨fun _ => hcave.mono hsize, fun f' hf' c hc => ?_⟩
            cases hf'
            rcases List.mem_or_eq_of_mem_set hc with hc | rfl
            · exact hcaves c hc
            · exact hcave.tail hsize

/-- A patch is given a cave that is one, or none. -/
theorem giveCave_caves {mem : CaveMemory} {finder finder' : Option E9CaveFinder} {p : E9BinPatch} {c : Int}
    (h : ∀ f, finder = some f → CavesOf d bin f) (hgive : giveCave d bin mem finder p = .ok (c, finder')) :
    (p.needsCave = true → c ≠ 0 → IsCave d bin c (p.hook_code.length + 32)) ∧
      ∀ f, finder' = some f → CavesOf d bin f := by
  unfold giveCave at hgive
  split at hgive
  · obtain ⟨finder₁, h₁, hgive⟩ := of_bind hgive
    have hcaves : ∀ f, finder₁ = some f → CavesOf d bin f := by
      intro f hf
      unfold finderFor at h₁
      split at h₁
      · exact h f ((Except.ok.inj h₁).trans hf)
      · obtain ⟨⟨r, found⟩, hfind, hr⟩ := map_eq_ok h₁
        have hfound : found = some f := hr.trans hf
        rw [hfound] at hfind
        exact caves_find_caves hfind
    obtain ⟨hcave, hleft⟩ := caves_alloc_caves hcaves (p.hook_code.length + 32)
    have heq := Except.ok.inj hgive
    rw [heq] at hcave hleft
    exact ⟨fun _ => hcave, hleft⟩
  · rename_i hneeds
    cases hgive
    exact ⟨fun hc => absurd hc hneeds, h⟩

theorem applyPatches_caves {mem : CaveMemory} {capacity : Nat} {ps : List E9BinPatch} {finder finder' : Option E9CaveFinder}
    {img img' : Nat → UInt8} {r : Int} (h : ∀ f, finder = some f → CavesOf d bin f)
    (hrun : applyPatches d bin mem capacity ps finder img = .ok (r, finder', img')) :
    ∀ f, finder' = some f → CavesOf d bin f := by
  induction ps generalizing finder img with
  | nil =>
      cases hrun
      exact h
  | cons p ps ih =>
      unfold applyPatches at hrun
      split at hrun
      · cases hrun
        exact h
      · obtain ⟨⟨c, finder₁⟩, hgive, hrun⟩ := of_bind hrun
        have hleft := (giveCave_caves h hgive).2
        simp only at hrun
        split at hrun
        · cases hrun
          exact hleft
        · split at hrun
          · exact ih hleft hrun
          · cases hrun

/-- An application leaves the binary and the patches as they are, and caves. -/
theorem apply_keeps {mem : CaveMemory} {s s' : E9BinPatchSession} {r : Int}
    (h : ∀ f, s.cave_finder = some f → CavesOf s.data s.bin f) (happly : e9_binpatch_apply mem s = .ok (r, s')) :
    s'.data = s.data ∧ s'.bin = s.bin ∧ s'.patches = s.patches ∧
      ∀ f, s'.cave_finder = some f → CavesOf s.data s.bin f := by
  unfold e9_binpatch_apply at happly
  split at happly
  · cases happly
    exact ⟨rfl, rfl, rfl, h⟩
  · split at happly
    · cases happly
      exact ⟨rfl, rfl, rfl, h⟩
    · obtain ⟨⟨r', finder, output⟩, hrun, happly⟩ := of_bind happly
      cases happly
      exact ⟨rfl, rfl, rfl, applyPatches_caves h hrun⟩

end E9Patch
