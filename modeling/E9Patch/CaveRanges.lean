import E9Patch.BinPatchRanges
import E9Patch.CaveAlloc
import Mathlib.Data.List.Nodup
import Mathlib.Data.List.Perm.Basic

/-!
Sequences of allocations from caves. What was free is what the allocations gave away and what is left, address
by address. An allocation that returns zero is a failure, also where that is the address of a cave.
-/

namespace E9Patch
open Reader

/-- The addresses of a range of `n` bytes. -/
def addresses (a : Int) (n : Nat) : List Int := (List.range n).map fun k => ptr (a + (k : Nat))

/-- The address and the size of what a sequence of allocations returns. -/
def allocations : Option E9CaveFinder → List Nat → List (Int × Nat)
  | _, [] => []
  | finder, size :: sizes => ((e9_caves_alloc finder size).1, size) :: allocations (e9_caves_alloc finder size).2 sizes

/-- The allocations that succeed. -/
def granted (f : E9CaveFinder) (sizes : List Nat) : List (Int × Nat) :=
  (allocations (some f) sizes).filter fun g => g.1 ≠ 0

/-- No address is in both ranges. -/
def Apart (g g' : Int × Nat) : Prop := ∀ x, ¬(x ∈ addresses g.1 g.2 ∧ x ∈ addresses g'.1 g'.2)

/-- No address but zero is in both caves. -/
def CavesApart (c c' : E9CodeCave) : Prop :=
  ∀ x ≠ 0, ¬(x ∈ addresses c.address c.size ∧ x ∈ addresses c'.address c'.size)

/-! ### Addresses -/

theorem addresses_add (a : Int) (m n : Nat) : addresses a (m + n) = addresses a m ++ addresses (ptr (a + m)) n := by
  unfold addresses
  rw [List.range_add, List.map_append, List.map_map]
  congr 1
  refine List.map_congr_left fun k _ => ?_
  simp only [Function.comp_apply, ptr]
  omega

theorem addresses_nodup {a : Int} {n : Nat} (hn : n ≤ 2 ^ 64) : (addresses a n).Nodup := by
  refine List.nodup_range.map_on ?_
  intro k hk j hj heq
  simp only [List.mem_range] at hk hj
  unfold ptr at heq
  omega

theorem mem_addresses {a x : Int} {n : Nat} : x ∈ addresses a n ↔ ∃ k < n, ptr (a + (k : Nat)) = x := by
  simp [addresses]

/-- A range that has the address zero, but not first, has the one before it. -/
theorem last_mem {a : Int} {n : Nat} (ha : IsWord a) (hne : a ≠ 0) (h : 0 ∈ addresses a n) : 2 ^ 64 - 1 ∈ addresses a n := by
  obtain ⟨k, hk, hzero⟩ := mem_addresses.mp h
  unfold IsWord at ha
  unfold ptr at hzero
  refine mem_addresses.mpr ⟨k - 1, by omega, ?_⟩
  unfold ptr
  omega

/-- What a cave gives is its start. -/
theorem addresses_take {cave : E9CodeCave} {size : Nat} (hroom : size ≤ cave.size) :
    addresses cave.address cave.size =
      addresses cave.address size ++ addresses (cave.take size).address (cave.take size).size := by
  rw [show cave.size = size + (cave.size - size) by omega, addresses_add]
  simp only [E9CodeCave.take]

/-! ### What is given away, and what is left -/

/-- All that caves give away, also where the address zero makes a failure of it. -/
def handed : E9CaveFinder → List Nat → List (Int × Nat)
  | _, [] => []
  | f, size :: sizes =>
    match bestCave size f.caves 0 none with
    | none => handed f sizes
    | some (i, best) => (best.address, size) :: handed { f with caves := f.caves.set i (best.take size) } sizes

def left : E9CaveFinder → List Nat → E9CaveFinder
  | f, [] => f
  | f, size :: sizes =>
    match bestCave size f.caves 0 none with
    | none => left f sizes
    | some (i, best) => left { f with caves := f.caves.set i (best.take size) } sizes

theorem granted_eq (f : E9CaveFinder) (sizes : List Nat) : granted f sizes = (handed f sizes).filter fun g => g.1 ≠ 0 := by
  unfold granted
  induction sizes generalizing f with
  | nil => rfl
  | cons size sizes ih =>
      unfold allocations handed
      cases hbest : bestCave size f.caves 0 none with
      | none =>
          simp only [e9_caves_alloc, hbest, List.filter_cons]
          exact ih f
      | some b =>
          obtain ⟨i, best⟩ := b
          simp only [e9_caves_alloc, hbest, List.filter_cons]
          rw [ih]

/-- The free addresses. -/
def freeAddresses (caves : List E9CodeCave) : List Int := caves.flatMap fun c => addresses c.address c.size

theorem free_set {caves : List E9CodeCave} {i : Nat} {c c' : E9CodeCave} {as : List Int} (hget : caves[i]? = some c)
    (has : addresses c.address c.size = as ++ addresses c'.address c'.size) :
    (freeAddresses caves).Perm (as ++ freeAddresses (caves.set i c')) := by
  induction caves generalizing i with
  | nil => cases hget
  | cons e caves ih =>
      unfold freeAddresses at ih ⊢
      cases i with
      | zero =>
          cases Option.some.inj hget
          rw [List.set_cons_zero, List.flatMap_cons, List.flatMap_cons, has, List.append_assoc]
      | succ i =>
          rw [List.set_cons_succ, List.flatMap_cons, List.flatMap_cons]
          refine ((ih (by simpa using hget)).append_left _).trans ?_
          rw [← List.append_assoc, ← List.append_assoc]
          exact List.perm_append_comm.append_right _

/-- What was free was given away or is left. -/
theorem free_perm (f : E9CaveFinder) (sizes : List Nat) :
    (freeAddresses f.caves).Perm
      (((handed f sizes).flatMap fun g => addresses g.1 g.2) ++ freeAddresses (left f sizes).caves) := by
  induction sizes generalizing f with
  | nil => exact List.Perm.refl _
  | cons size sizes ih =>
      unfold handed left
      cases hbest : bestCave size f.caves 0 none with
      | none => exact ih f
      | some b =>
          obtain ⟨i, best⟩ := b
          obtain ⟨hget, hroom⟩ := bestCave_get hbest
          simp only [List.flatMap_cons, List.append_assoc]
          exact (free_set hget (addresses_take hroom)).trans
            ((ih { f with caves := f.caves.set i (best.take size) }).append_left _)

/-- A range that is given away is part of a cave. -/
theorem handed_inside {f : E9CaveFinder} {sizes : List Nat} {g : Int × Nat} (hg : g ∈ handed f sizes) :
    ∃ c ∈ f.caves, ∀ x ∈ addresses g.1 g.2, x ∈ addresses c.address c.size := by
  induction sizes generalizing f with
  | nil => cases hg
  | cons size sizes ih =>
      unfold handed at hg
      cases hbest : bestCave size f.caves 0 none with
      | none =>
          rw [hbest] at hg
          exact ih hg
      | some b =>
          obtain ⟨i, best⟩ := b
          rw [hbest] at hg
          obtain ⟨hget, hroom⟩ := bestCave_get hbest
          have hmem : best ∈ f.caves := List.mem_of_getElem? hget
          rcases List.mem_cons.mp hg with rfl | hg
          · refine ⟨best, hmem, fun x hx => ?_⟩
            rw [addresses_take hroom]
            exact List.mem_append_left _ hx
          · obtain ⟨c, hc, hinside⟩ := ih hg
            rcases List.mem_or_eq_of_mem_set hc with hc | rfl
            · exact ⟨c, hc, hinside⟩
            · refine ⟨best, hmem, fun x hx => ?_⟩
              rw [addresses_take hroom]
              exact List.mem_append_right _ (hinside x hx)

/-- Caves at words give ranges at words. -/
theorem handed_isWord {f : E9CaveFinder} (hf : ∀ c ∈ f.caves, IsWord c.address) {sizes : List Nat} {g : Int × Nat}
    (hg : g ∈ handed f sizes) : IsWord g.1 := by
  induction sizes generalizing f with
  | nil => cases hg
  | cons size sizes ih =>
      unfold handed at hg
      cases hbest : bestCave size f.caves 0 none with
      | none =>
          rw [hbest] at hg
          exact ih hf hg
      | some b =>
          obtain ⟨i, best⟩ := b
          rw [hbest] at hg
          rcases List.mem_cons.mp hg with rfl | hg
          · exact hf best (List.mem_of_getElem? (bestCave_get hbest).1)
          · refine ih (fun c hc => ?_) hg
            rcases List.mem_or_eq_of_mem_set hc with hc | rfl
            · exact hf c hc
            · exact isWord_ptr _

/-! ### Ranges that are given away are apart -/

theorem mem_nonzero {l : List Int} {x : Int} : x ∈ l.filter (fun x => x ≠ 0) ↔ x ∈ l ∧ x ≠ 0 := by
  simp

/-- Caves share no address but zero exactly if each other address is free once. -/
theorem free_nodup_iff {caves : List E9CodeCave} (hsize : ∀ c ∈ caves, c.size ≤ 2 ^ 64) :
    ((freeAddresses caves).filter fun x => x ≠ 0).Nodup ↔ caves.Pairwise CavesApart := by
  unfold freeAddresses
  rw [List.filter_flatMap, List.nodup_flatMap]
  have hapart : ∀ c c' : E9CodeCave, Function.onFun List.Disjoint (fun a : E9CodeCave =>
      (addresses a.address a.size).filter fun x => x ≠ 0) c c' ↔ CavesApart c c' := by
    intro c c'
    unfold CavesApart
    simp only [Function.onFun, List.Disjoint, mem_nonzero]
    exact ⟨fun h x hx hmem => h ⟨hmem.1, hx⟩ ⟨hmem.2, hx⟩, fun h x hx hx' => h x hx.2 ⟨hx.1, hx'.1⟩⟩
  constructor
  · exact fun h => h.2.imp fun hdisjoint => (hapart _ _).mp hdisjoint
  · exact fun h => ⟨fun c hc => (addresses_nodup (hsize c hc)).filter _, h.imp fun h' => (hapart _ _).mpr h'⟩

/-- Byte by byte, all that is free is given away. -/
theorem left_all {f : E9CaveFinder} {n : Nat} (hn : f.free ≤ n) : freeAddresses (left f (List.replicate n 1)).caves = [] := by
  have hnil : ∀ f : E9CaveFinder, NoRoom f 1 → freeAddresses f.caves = [] := by
    intro f hf
    unfold freeAddresses
    refine List.flatMap_eq_nil_iff.mpr fun c hc => ?_
    have hempty : c.size = 0 := by
      have := hf c hc
      omega
    rw [hempty]
    rfl
  induction n generalizing f with
  | zero =>
      refine hnil f fun c hc => ?_
      have hsizes := List.sum_eq_zero_iff_forall_eq_nat.mp (Nat.le_zero.mp hn)
      have hzero := hsizes c.size (List.mem_map_of_mem hc)
      omega
  | succ n ih =>
      rw [List.replicate_succ]
      unfold left
      cases hbest : bestCave 1 f.caves 0 none with
      | none =>
          refine ih ?_
          have hnone : NoRoom f 1 := (bestCave_none.mp hbest).2
          have hzero : f.free = 0 := by
            refine List.sum_eq_zero_iff_forall_eq_nat.mpr fun x hx => ?_
            obtain ⟨c, hc, rfl⟩ := List.mem_map.mp hx
            have := hnone c hc
            omega
          omega
      | some b =>
          obtain ⟨i, best⟩ := b
          obtain ⟨hget, hroom⟩ := bestCave_get hbest
          have hsum := @sum_set f.caves i best (best.take 1) hget (by simp only [E9CodeCave.take]; omega)
          refine ih ?_
          unfold E9CaveFinder.free at hn ⊢
          simp only [E9CodeCave.take] at hsum ⊢
          omega

theorem handed_ones {f : E9CaveFinder} {n : Nat} {g : Int × Nat} (hg : g ∈ handed f (List.replicate n 1)) : g.2 = 1 := by
  induction n generalizing f with
  | zero => cases hg
  | succ n ih =>
      rw [List.replicate_succ] at hg
      unfold handed at hg
      split at hg
      · exact ih hg
      · rcases List.mem_cons.mp hg with rfl | hg
        · rfl
        · exact ih hg

/-- All that allocations give is apart exactly if the caves are. -/
theorem granted_apart_iff {f : E9CaveFinder} (hword : ∀ c ∈ f.caves, IsWord c.address)
    (hsize : ∀ c ∈ f.caves, c.size ≤ 2 ^ 64) :
    (∀ sizes, (granted f sizes).Pairwise Apart) ↔ f.caves.Pairwise CavesApart := by
  rw [← free_nodup_iff hsize]
  constructor
  · intro h
    have hperm := free_perm f (List.replicate f.free 1)
    rw [left_all (Nat.le_refl _), List.append_nil] at hperm
    refine (hperm.filter _).nodup_iff.mpr ?_
    have hbytes : ∀ gs : List (Int × Nat), (∀ g ∈ gs, g.2 = 1 ∧ IsWord g.1) →
        ((gs.flatMap fun g => addresses g.1 g.2).filter fun x => x ≠ 0) = (gs.filter fun g => g.1 ≠ 0).map Prod.fst := by
      intro gs hgs
      induction gs with
      | nil => rfl
      | cons g gs ih =>
          obtain ⟨hone, haddr⟩ := hgs g List.mem_cons_self
          have hsingle : addresses g.1 g.2 = [g.1] := by
            unfold IsWord at haddr
            rw [hone]
            simp only [addresses, ptr, List.range_one, List.map_cons, List.map_nil]
            congr 1
            omega
          rw [List.flatMap_cons, hsingle, List.singleton_append, List.filter_cons, List.filter_cons,
            ih fun g' hg' => hgs g' (List.mem_cons_of_mem _ hg')]
          split <;> rfl
    rw [hbytes _ fun g hg => ⟨handed_ones hg, handed_isWord hword hg⟩, ← granted_eq]
    have hmem : ∀ g ∈ granted f (List.replicate f.free 1), g.1 ∈ addresses g.1 g.2 := by
      intro g hg
      rw [granted_eq] at hg
      have hg := List.mem_of_mem_filter hg
      have haddr := handed_isWord hword hg
      unfold IsWord at haddr
      rw [handed_ones hg]
      refine mem_addresses.mpr ⟨0, by decide, ?_⟩
      unfold ptr
      omega
    refine List.pairwise_map.mpr ((h (List.replicate f.free 1)).imp_of_mem fun hg hg' hapart heq => ?_)
    refine hapart _ ⟨hmem _ hg, ?_⟩
    rw [heq]
    exact hmem _ hg'
  · intro hfree sizes
    have hall := ((free_perm f sizes).filter fun x => decide (x ≠ 0)).nodup_iff.mp hfree
    rw [List.filter_append] at hall
    have hhanded := hall.of_append_left
    rw [List.filter_flatMap, List.nodup_flatMap] at hhanded
    rw [granted_eq]
    refine (hhanded.2.filter _).imp_of_mem fun {g g'} hg hg' hdisjoint x hx => ?_
    have hcommon : ∀ y ≠ 0, ¬(y ∈ addresses g.1 g.2 ∧ y ∈ addresses g'.1 g'.2) :=
      fun y hy hmem => hdisjoint (mem_nonzero.mpr ⟨hmem.1, hy⟩) (mem_nonzero.mpr ⟨hmem.2, hy⟩)
    by_cases hzero : x = 0
    · -- neither range begins with zero, so both have the last address too
      rw [List.mem_filter, decide_eq_true_eq] at hg hg'
      subst hzero
      have hlast := last_mem (handed_isWord hword hg.1) hg.2 hx.1
      have hlast' := last_mem (handed_isWord hword hg'.1) hg'.2 hx.2
      exact hcommon _ (by decide) ⟨hlast, hlast'⟩
    · exact hcommon x hzero hx

end E9Patch
