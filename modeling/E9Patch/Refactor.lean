import E9Patch.PatchTheorems

/-!
Refactored patching (`e9elf.cpp`): the patched pages are copied behind the file, to be mapped over the original
ones by the loader, and the original pages are restored. A page is found through the first instruction behind
its start, and pages that are near each other are copied as one run. Where no instruction is behind a page, the
assertion ends the program, and so does the null pointer in a build without it.
-/

namespace E9Patch
open Bytes Binary Fallible

/-! ### Instructions by offset -/

/-- The offset at a position of the instruction array; behind its end is zero memory. -/
def offsetAt (B : Binary) (mid : Int) : Nat :=
  if mid ≥ B.count then 0 else (B.Is (B.count - 1 - mid).toNat).offset

/-- The loop of `InstrSet::lower_bound`: the last position, and whether the offset was found there. -/
def lowerLoop (B : Binary) (offset : Nat) : Nat → Int → Int → Int → Int × Bool
  | 0, _, _, mid => (mid, false)
  | fuel + 1, lo, hi, mid =>
    if lo > hi then (mid, false)
    else
      let mid := (lo + hi) / 2
      if offset > offsetAt B mid then lowerLoop B offset fuel (mid + 1) hi mid
      else if offset < offsetAt B mid then lowerLoop B offset fuel lo (mid - 1) mid
      else (mid, true)

/-- Find the first instruction >= the offset. -/
def lower_bound (B : Binary) (offset : Nat) : Option Nat :=
  if B.count = 0 then none
  else
    let r := lowerLoop B offset (B.count + 1) 0 (B.count - 1) 0
    if r.2 then some (B.count - 1 - r.1).toNat
    else
      let mid := if offsetAt B r.1 < offset then r.1 + 1 else r.1
      if offsetAt B mid = 0 then none else some (B.count - 1 - mid).toNat

/-! ### Refactoring -/

/-- A run of pages: where it is loaded, and where it was and is in the file. -/
structure Refactor where
  addr : Int
  size : Nat
  original : Nat
  patched : Nat
  deriving DecidableEq, Repr

/-- `memcmp(original + offset, data + offset, PAGE_SIZE) == 0`. -/
def samePage (original data : Nat → UInt8) (offset : Nat) : Bool :=
  (List.range PAGE_SIZE).all fun i => original (offset + i) = data (offset + i)

/-- The current run, and those before it. -/
structure RefactorScan where
  addr : Int
  offset : Nat
  size : Nat
  refactors : List Refactor

/-- Save the current run, if there is one. -/
def RefactorScan.save (s : RefactorScan) : List Refactor :=
  if s.addr ≥ 0 then s.refactors ++ [⟨s.addr, s.size, s.offset, 0⟩] else s.refactors

/-- One page of step #1. -/
def refactorPage (B : Binary) (original data : Nat → UInt8) (mapping_size : Nat) (s : RefactorScan)
    (offset : Nat) : Except Fault RefactorScan :=
  if samePage original data offset then .ok s
  else do
    let k ← deref (lower_bound B offset)
    let I := B.Is k
    let page_addr := I.addr - I.addr % PAGE_SIZE
    let page_offset := I.offset - I.offset % PAGE_SIZE
    assert (page_offset = offset)
    if s.addr < 0 ∨ page_addr < s.addr ∨ s.addr + s.size + mapping_size < page_addr then
      .ok ⟨page_addr, page_offset, PAGE_SIZE, s.save⟩
    else .ok { s with size := (s.size + ((page_addr + PAGE_SIZE) - (s.addr + s.size))).toNat }

/-- `memcpy(data + dst, data + src, size)`. -/
def copyBytes (data : Nat → UInt8) (dst src size : Nat) : Nat → UInt8 := fun p =>
  if dst ≤ p ∧ p < dst + size then data (src + (p - dst)) else data p

/-- `memcpy(data + offset, original + offset, size)`. -/
def restoreBytes (original data : Nat → UInt8) (offset size : Nat) : Nat → UInt8 := fun p =>
  if offset ≤ p ∧ p < offset + size then original p else data p

/-- One run of step #2. -/
def moveRun (original : Nat → UInt8) (s : (Nat → UInt8) × Nat × List Refactor) (r : Refactor) :
    (Nat → UInt8) × Nat × List Refactor :=
  let data := copyBytes s.1 s.2.1 r.original r.size
  (restoreBytes original data r.original r.size, s.2.1 + r.size, s.2.2 ++ [{ r with patched := s.2.1 }])

/-- Refactor out the patched pages & restore the original pages. -/
def emitRefactoredPatch (B : Binary) (original data : Nat → UInt8) (size mapping_size : Nat) :
    Except Fault ((Nat → UInt8) × Nat × List Refactor) := do
  assert (size % PAGE_SIZE = 0)
  let pages := (List.range (size / PAGE_SIZE)).map (· * PAGE_SIZE)
  let s ← pages.foldlM (refactorPage B original data mapping_size) ⟨INTPTR_MIN, 0, 0, []⟩
  .ok (s.save.foldl (moveRun original) (data, size, []))

/-- Round-up to nearest page boundary. -/
def paddedSize (B : Binary) : Nat :=
  if B.size % PAGE_SIZE = 0 then B.size else B.size + PAGE_SIZE - B.size % PAGE_SIZE

/-- `emitElf` up to the refactoring. -/
def refactorElf (B : Binary) (mapping_size : Nat) : Except Fault ((Nat → UInt8) × Nat × List Refactor) :=
  emitRefactoredPatch B B.original B.bytes (paddedSize B) mapping_size

/-! ### The first instruction behind an offset -/

variable {B : Binary}

theorem offsetAt_lt (hw : WellFormed B) {a b : Int} (ha : 0 ≤ a) (hab : a < b) (hb : b < B.count) :
    offsetAt B a < offsetAt B b := by
  unfold offsetAt
  rw [if_neg (by omega), if_neg (by omega)]
  have h := hw.offsets (B.count - 1 - b).toNat (B.count - 1 - a).toNat (by omega) (by omega)
  have hs := hw.size (B.count - 1 - a).toNat (by omega)
  omega

/-- The position of the first offset that is not below. -/
structure InsertionPoint (B : Binary) (offset : Nat) (p : Int) : Prop where
  lower : 0 ≤ p
  upper : p ≤ B.count
  below : ∀ m : Int, 0 ≤ m → m < p → offsetAt B m < offset
  above : ∀ m : Int, p ≤ m → m < B.count → offset ≤ offsetAt B m

theorem lowerLoop_spec (hw : WellFormed B) {offset : Nat} {fuel : Nat} {lo hi mid : Int}
    (hlo : 0 ≤ lo) (hhi : hi < B.count) (hfuel : hi - lo + 1 < fuel)
    (hbelow : ∀ m : Int, 0 ≤ m → m < lo → offsetAt B m < offset)
    (habove : ∀ m : Int, hi < m → m < B.count → offset < offsetAt B m)
    (hmid : lo ≤ hi ∨ (lo = hi + 1 ∧ 0 ≤ mid ∧ mid < B.count ∧ (mid = lo - 1 ∨ mid = lo))) :
    ∃ p, InsertionPoint B offset p ∧
      let r := lowerLoop B offset fuel lo hi mid
      0 ≤ r.1 ∧ r.1 < B.count ∧ (r.2 = true → r.1 = p) ∧
      (r.2 = false → (r.1 = p - 1 ∨ r.1 = p) ∧ ∀ m : Int, p ≤ m → m < B.count → offset < offsetAt B m) := by
  induction fuel generalizing lo hi mid with
  | zero => omega
  | succ fuel ih =>
      rw [lowerLoop]
      by_cases hend : lo > hi
      · obtain hmid | ⟨hlohi, h0, h1, hm⟩ := hmid
        · omega
        rw [if_pos hend]
        refine ⟨lo, ⟨hlo, by omega, hbelow, fun m h h' => Nat.le_of_lt (habove m (by omega) h')⟩, h0, h1,
          fun h => Bool.noConfusion h, fun _ => ⟨hm, fun m h h' => habove m (by omega) h'⟩⟩
      · rw [if_neg hend]
        dsimp only
        generalize hm : (lo + hi) / 2 = m
        have hm' : lo ≤ m ∧ m ≤ hi := by omega
        by_cases hgt : offset > offsetAt B m
        · rw [if_pos hgt]
          refine ih (by omega) hhi (by omega) (fun j hj hj' => ?_) habove (by omega)
          rcases Int.lt_or_eq_of_le (show j ≤ m by omega) with hlt | rfl
          · exact Nat.lt_trans (offsetAt_lt hw hj hlt (by omega)) hgt
          · exact hgt
        · rw [if_neg hgt]
          by_cases hlt : offset < offsetAt B m
          · rw [if_pos hlt]
            refine ih hlo (by omega) (by omega) hbelow (fun j hj hj' => ?_) (by omega)
            rcases Int.lt_or_eq_of_le (show m ≤ j by omega) with hmj | rfl
            · exact Nat.lt_trans hlt (offsetAt_lt hw (by omega) hmj hj')
            · exact hlt
          · rw [if_neg hlt]
            have heq : offsetAt B m = offset := by omega
            refine ⟨m, ⟨by omega, by omega, fun j hj hjm => ?_, fun j hj hj' => ?_⟩, by omega, by omega,
              fun _ => rfl, fun h => Bool.noConfusion h⟩
            · rw [← heq]
              exact offsetAt_lt hw hj hjm (by omega)
            · rcases Int.lt_or_eq_of_le hj with hmj | rfl
              · rw [← heq]
                exact Nat.le_of_lt (offsetAt_lt hw (by omega) hmj hj')
              · exact Nat.le_of_eq heq.symm

theorem offsetAt_position {m : Int} (h1 : m < B.count) :
    offsetAt B m = (B.Is (B.count - 1 - m).toNat).offset := by
  rw [offsetAt, if_neg (by omega)]

/-- The first instruction that starts at the offset or behind it. -/
structure FirstFrom (B : Binary) (offset k : Nat) : Prop where
  known : k < B.count
  behind : offset ≤ (B.Is k).offset
  first : ∀ j < B.count, offset ≤ (B.Is j).offset → (B.Is k).offset ≤ (B.Is j).offset

theorem InsertionPoint.first {offset : Nat} {p : Int} (hp : InsertionPoint B offset p) (hw : WellFormed B)
    (hlt : p < B.count) : FirstFrom B offset (B.count - 1 - p).toNat := by
  have h0 := hp.lower
  refine ⟨by omega, ?_, fun j hj hoff => ?_⟩
  · have h := hp.above p (Int.le_refl p) hlt
    rwa [offsetAt_position hlt] at h
  · by_contra hcon
    have hcase : (B.count - 1 - j : Int) < p := by
      by_contra hge
      have hk := hw.offsets j (B.count - 1 - p).toNat
      rcases Nat.lt_trichotomy j (B.count - 1 - p).toNat with h | h | h
      · have := hk h (by omega)
        omega
      · exact hcon (by rw [h])
      · omega
    have h := hp.below (B.count - 1 - j) (by omega) hcase
    rw [offsetAt_position (by omega)] at h
    have he : (B.count - 1 - (B.count - 1 - j : Int)).toNat = j := by omega
    rw [he] at h
    omega

theorem InsertionPoint.all_below {offset : Nat} {p : Int} (hp : InsertionPoint B offset p)
    (hlt : ¬ p < B.count) : ∀ j < B.count, (B.Is j).offset < offset := by
  intro j hj
  have h := hp.below (B.count - 1 - j) (by omega) (by omega)
  rw [offsetAt_position (by omega)] at h
  have he : (B.count - 1 - (B.count - 1 - j : Int)).toNat = j := by omega
  rwa [he] at h

theorem lower_bound_spec (hw : WellFormed B) (offset : Nat) :
    (∃ k, lower_bound B offset = some k ∧ FirstFrom B offset k) ∨
    (lower_bound B offset = none ∧ ∀ j < B.count, (B.Is j).offset < offset) := by
  unfold lower_bound
  by_cases hcount : B.count = 0
  · exact .inr ⟨by rw [if_pos hcount], fun j hj => by omega⟩
  rw [if_neg hcount]
  obtain ⟨p, hp, h0, h1, hfound, hmissed⟩ := @lowerLoop_spec B hw offset (B.count + 1) 0 (B.count - 1) 0
    (Int.le_refl 0) (show (B.count - 1 : Int) < B.count by omega) (by omega) (fun m h h' => by omega)
    (fun m h h' => by omega) (.inl (by omega))
  dsimp only at h0 h1 hfound hmissed ⊢
  cases hr : (lowerLoop B offset (B.count + 1) 0 (B.count - 1) 0).2 with
  | true =>
      have he := hfound hr
      rw [if_pos rfl, he]
      exact .inl ⟨_, rfl, hp.first hw (by omega)⟩
  | false =>
      obtain ⟨hpos, hstrict⟩ := hmissed hr
      have hmid : (if offsetAt B (lowerLoop B offset (B.count + 1) 0 (B.count - 1) 0).1 < offset
          then (lowerLoop B offset (B.count + 1) 0 (B.count - 1) 0).1 + 1
          else (lowerLoop B offset (B.count + 1) 0 (B.count - 1) 0).1) = p := by
        rcases hpos with he | he
        · rw [he, if_pos (hp.below (p - 1) (by omega) (by omega))]
          omega
        · rw [he, if_neg (Nat.not_lt.2 (hp.above p (Int.le_refl p) (by omega)))]
      rw [if_neg (by decide), hmid]
      by_cases hlt : p < B.count
      · have hpos := hstrict p (Int.le_refl p) hlt
        rw [if_neg (by omega)]
        exact .inl ⟨_, rfl, hp.first hw hlt⟩
      · rw [if_pos (by rw [offsetAt, if_pos (by omega)])]
        exact .inr ⟨rfl, hp.all_below hlt⟩

/-! ### Step #1 -/

/-- A page of the image that patching has changed. -/
def Dirty (original data : Nat → UInt8) (size o : Nat) : Prop :=
  o % PAGE_SIZE = 0 ∧ o < size ∧ samePage original data o = false

/-- An instruction starts in the page. -/
def StartsIn (B : Binary) (o : Nat) : Prop :=
  ∃ k < B.count, o ≤ (B.Is k).offset ∧ (B.Is k).offset < o + PAGE_SIZE

/-- Where the page of the first instruction from an offset on is loaded. -/
def pageAddr (B : Binary) (o : Nat) : Int :=
  match lower_bound B o with
  | none => 0
  | some k => (B.Is k).addr - (B.Is k).addr % PAGE_SIZE

/-- A page that is loaded at an address is added to the scan. -/
def addPage (mapping_size : Nat) (s : RefactorScan) (page_addr : Int) (offset : Nat) : RefactorScan :=
  if s.addr < 0 ∨ page_addr < s.addr ∨ s.addr + s.size + mapping_size < page_addr then
    ⟨page_addr, offset, PAGE_SIZE, s.save⟩
  else { s with size := (s.size + ((page_addr + PAGE_SIZE) - (s.addr + s.size))).toNat }

theorem samePage_iff {original data : Nat → UInt8} {o : Nat} :
    samePage original data o = true ↔ ∀ i < PAGE_SIZE, original (o + i) = data (o + i) := by
  rw [samePage, List.all_eq_true]
  constructor
  · intro h i hi
    exact of_decide_eq_true (h i (List.mem_range.2 hi))
  · intro h i hi
    exact decide_eq_true (h i (List.mem_range.1 hi))

theorem FirstFrom.page_offset {o k : Nat} (hk : FirstFrom B o k) (ho : o % PAGE_SIZE = 0) (hs : StartsIn B o) :
    (B.Is k).offset - (B.Is k).offset % PAGE_SIZE = o := by
  obtain ⟨j, hj, hle, hlt⟩ := hs
  have h1 := hk.first j hj hle
  have h2 := hk.behind
  simp only [PAGE_SIZE] at ho hlt ⊢
  omega

theorem startsIn_of_page_offset {o k : Nat} (hk : FirstFrom B o k)
    (h : (B.Is k).offset - (B.Is k).offset % PAGE_SIZE = o) : StartsIn B o := by
  refine ⟨k, hk.known, hk.behind, ?_⟩
  simp only [PAGE_SIZE] at h ⊢
  omega

variable {original data : Nat → UInt8} {size mapping_size : Nat}

theorem refactorPage_clean (s : RefactorScan) {o : Nat} (h : samePage original data o = true) :
    refactorPage B original data mapping_size s o = .ok s := by
  rw [refactorPage, if_pos h]

theorem refactorPage_dirty (hw : WellFormed B) (s : RefactorScan) {o : Nat} (hd : Dirty original data size o)
    (hs : StartsIn B o) :
    refactorPage B original data mapping_size s o = .ok (addPage mapping_size s (pageAddr B o) o) := by
  obtain ⟨k, hk, hfirst⟩ | ⟨-, hnone⟩ := lower_bound_spec hw o
  · have hp := hfirst.page_offset hd.1 hs
    rw [refactorPage, if_neg (by rw [hd.2.2]; decide)]
    refine bind_ok.mpr ⟨k, deref_ok.mpr hk, bind_ok.mpr ⟨(), assert_ok.mpr hp, ?_⟩⟩
    simp only [addPage, pageAddr, hk, hp]
    split_ifs with h
    · rfl
    · rfl
  · obtain ⟨j, hj, hle, -⟩ := hs
    exact absurd (hnone j hj) (by omega)

theorem startsIn_of_refactorPage_ok (hw : WellFormed B) {s s' : RefactorScan} {o : Nat}
    (hd : Dirty original data size o) (h : refactorPage B original data mapping_size s o = .ok s') :
    StartsIn B o := by
  rw [refactorPage, if_neg (by rw [hd.2.2]; decide)] at h
  obtain ⟨k, hk, h⟩ := bind_ok.mp h
  obtain ⟨_, ha, _⟩ := bind_ok.mp h
  obtain ⟨k', hk', hfirst⟩ | ⟨hnone, -⟩ := lower_bound_spec hw o
  · rw [deref_ok, hk'] at hk
    obtain rfl := Option.some.inj hk
    exact startsIn_of_page_offset hfirst (assert_ok.mp ha)
  · rw [deref_ok, hnone] at hk
    exact nomatch hk

/-! ### The runs -/

/-- The page is part of the run, at the same distance in memory and in the file. -/
def Refactor.Holds (r : Refactor) (load : Nat → Int) (o : Nat) : Prop :=
  r.original ≤ o ∧ o + PAGE_SIZE ≤ r.original + r.size ∧ load o = r.addr + (o - r.original : Int)

/-- One run lies before the other, in memory and in the file. -/
def Refactor.Before (r r' : Refactor) : Prop :=
  r.original + r.size ≤ r'.original ∧ r.addr + r.size ≤ r'.addr

/-- Dirty pages that would be joined are as far from each other in memory as in the file. -/
structure Even (load : Nat → Int) (dirty : Nat → Prop) (mapping_size : Nat) : Prop where
  aligned : ∀ o, dirty o → o % PAGE_SIZE = 0 ∧ load o % PAGE_SIZE = 0
  lower : ∀ o, dirty o → 0 ≤ load o
  mono : ∀ p q, dirty p → dirty q → p < q → load p ≤ load q
  joined : ∀ p q, dirty p → dirty q → p < q → (∀ o, dirty o → p < o → q ≤ o) →
    load q ≤ load p + PAGE_SIZE + mapping_size → load q - load p = q - p

/-- What the scan has found once it has looked at the pages below `n`. -/
structure Scanned (load : Nat → Int) (dirty : Nat → Prop) (n : Nat) (s : RefactorScan) : Prop where
  covers : ∀ o < n, dirty o → ∃ r ∈ s.save, r.Holds load o
  apart : s.save.Pairwise Refactor.Before
  inside : ∀ r ∈ s.save, r.patched = 0 ∧ r.original + r.size ≤ n
  empty : s.addr < 0 → s.refactors = []
  last : 0 ≤ s.addr → ∃ p < n, dirty p ∧ (∀ o, dirty o → p < o → n ≤ o) ∧
    s.offset ≤ p ∧ s.offset + s.size = p + PAGE_SIZE ∧ s.addr + s.size = load p + PAGE_SIZE

theorem save_of_neg {s : RefactorScan} (h : s.addr < 0) : s.save = s.refactors := by
  rw [RefactorScan.save, if_neg (by omega)]

theorem save_of_nonneg {s : RefactorScan} (h : 0 ≤ s.addr) :
    s.save = s.refactors ++ [⟨s.addr, s.size, s.offset, 0⟩] := by
  rw [RefactorScan.save, if_pos h]

variable {load : Nat → Int} {dirty : Nat → Prop} {n : Nat} {s : RefactorScan}

theorem scanned_zero : Scanned load dirty 0 ⟨INTPTR_MIN, 0, 0, []⟩ :=
  ⟨fun _ h => absurd h (Nat.not_lt_zero _), List.Pairwise.nil, fun _ h => absurd h List.not_mem_nil,
    fun _ => rfl, fun h => absurd h (by decide)⟩

theorem Scanned.clean (h : Scanned load dirty n s) (hn : n % PAGE_SIZE = 0)
    (ha : ∀ o, dirty o → o % PAGE_SIZE = 0) (hd : ¬ dirty n) : Scanned load dirty (n + PAGE_SIZE) s := by
  have hnext : ∀ o, dirty o → n ≤ o → n + PAGE_SIZE ≤ o := by
    intro o ho hle
    have h0 := ha o ho
    have hne : o ≠ n := by rintro rfl; exact hd ho
    simp only [PAGE_SIZE] at hn h0 ⊢
    omega
  refine ⟨fun o ho hdo => ?_, h.apart, fun r hr => ?_, h.empty, fun hpos => ?_⟩
  · by_cases hlt : o < n
    · exact h.covers o hlt hdo
    · exact absurd (hnext o hdo (by omega)) (by omega)
  · obtain ⟨h0, h1⟩ := h.inside r hr
    exact ⟨h0, by omega⟩
  · obtain ⟨p, hp, hdp, hlast, hends⟩ := h.last hpos
    exact ⟨p, by omega, hdp, fun o ho hlt => hnext o ho (hlast o ho hlt), hends⟩

/-- The last page of the current run ends before the next page is loaded. -/
theorem Even.gap (he : Even load dirty mapping_size) {p : Nat} (hp : dirty p) (hd : dirty n) (hlt : p < n)
    (hlast : ∀ o, dirty o → p < o → n ≤ o) : load p + PAGE_SIZE ≤ load n := by
  by_cases hnear : load n ≤ load p + PAGE_SIZE + mapping_size
  · have h := he.joined p n hp hd hlt hlast hnear
    have h1 := (he.aligned p hp).1
    have h2 := (he.aligned n hd).1
    simp only [PAGE_SIZE] at h1 h2 ⊢
    omega
  · omega

theorem Scanned.below (h : Scanned load dirty n s) (he : Even load dirty mapping_size) (hd : dirty n) :
    ∀ r ∈ s.save, r.addr + r.size ≤ load n := by
  intro r hr
  by_cases hneg : s.addr < 0
  · rw [save_of_neg hneg, h.empty hneg] at hr
    exact absurd hr List.not_mem_nil
  have hpos : 0 ≤ s.addr := by omega
  obtain ⟨p, hp, hdp, hlast, -, -, haddr⟩ := h.last hpos
  have hgap := he.gap hdp hd hp hlast
  have hapart := h.apart
  rw [save_of_nonneg hpos] at hr hapart
  rcases List.mem_append.1 hr with hr | hr
  · have hb := (List.pairwise_append.1 hapart).2.2 r hr _ (List.mem_singleton.2 rfl)
    have := hb.2
    dsimp only at this
    omega
  · obtain rfl := List.mem_singleton.1 hr
    dsimp only
    omega

/-- The page starts a new run. -/
theorem Scanned.start (h : Scanned load dirty n s) (he : Even load dirty mapping_size) (hd : dirty n) :
    Scanned load dirty (n + PAGE_SIZE) ⟨load n, n, PAGE_SIZE, s.save⟩ := by
  have hpos := he.lower n hd
  have hsave : RefactorScan.save ⟨load n, n, PAGE_SIZE, s.save⟩ = s.save ++ [⟨load n, PAGE_SIZE, n, 0⟩] :=
    save_of_nonneg hpos
  have hpage : ∀ o, dirty o → n < o → n + PAGE_SIZE ≤ o := by
    intro o ho hlt
    have h0 := (he.aligned o ho).1
    have h1 := (he.aligned n hd).1
    simp only [PAGE_SIZE] at h0 h1 ⊢
    omega
  refine ⟨fun o ho hdo => ?_, ?_, fun r hr => ?_, fun hneg => absurd hpos (Int.not_le.2 hneg), fun _ => ?_⟩
  · rw [hsave]
    by_cases hlt : o < n
    · obtain ⟨r, hr, hholds⟩ := h.covers o hlt hdo
      exact ⟨r, List.mem_append_left _ hr, hholds⟩
    · have heq : o = n := by
        by_contra hne
        exact absurd (hpage o hdo (by omega)) (by omega)
      refine ⟨_, List.mem_append_right _ (List.mem_singleton.2 rfl), ?_⟩
      rw [heq]
      exact ⟨Nat.le_refl _, Nat.le_refl _, by dsimp only; omega⟩
  · rw [hsave]
    refine List.pairwise_append.2 ⟨h.apart, List.pairwise_singleton _ _, fun r hr r' hr' => ?_⟩
    obtain rfl := List.mem_singleton.1 hr'
    exact ⟨(h.inside r hr).2, h.below he hd r hr⟩
  · rw [hsave] at hr
    rcases List.mem_append.1 hr with hr | hr
    · obtain ⟨h0, h1⟩ := h.inside r hr
      exact ⟨h0, by omega⟩
    · obtain rfl := List.mem_singleton.1 hr
      exact ⟨rfl, Nat.le_refl _⟩
  · exact ⟨n, by simp [PAGE_SIZE], hd, hpage, Nat.le_refl _, rfl, rfl⟩

/-- The page is joined to the current run. -/
theorem Scanned.join (h : Scanned load dirty n s) (he : Even load dirty mapping_size) (hd : dirty n)
    (hpos : 0 ≤ s.addr) (hnear : load n ≤ s.addr + s.size + mapping_size) :
    Scanned load dirty (n + PAGE_SIZE)
      { s with size := (s.size + ((load n + PAGE_SIZE) - (s.addr + s.size))).toNat } := by
  obtain ⟨p, hp, hdp, hlast, hle, hoff, haddr⟩ := h.last hpos
  have heven := he.joined p n hdp hd hp hlast (by omega)
  have hsize : ((s.size + ((load n + PAGE_SIZE) - (s.addr + s.size))).toNat : Int) = s.size + (n - p : Int) := by
    omega
  generalize (s.size + ((load n + PAGE_SIZE) - (s.addr + s.size))).toNat = size' at hsize ⊢
  have hsave : RefactorScan.save { s with size := size' } = s.refactors ++ [⟨s.addr, size', s.offset, 0⟩] :=
    save_of_nonneg hpos
  have hold := save_of_nonneg hpos
  have hpage : ∀ o, dirty o → n < o → n + PAGE_SIZE ≤ o := by
    intro o ho hlt
    have h0 := (he.aligned o ho).1
    have h1 := (he.aligned n hd).1
    simp only [PAGE_SIZE] at h0 h1 ⊢
    omega
  have hgap : p + PAGE_SIZE ≤ n := by
    have h0 := (he.aligned p hdp).1
    have h1 := (he.aligned n hd).1
    simp only [PAGE_SIZE] at h0 h1 ⊢
    omega
  refine ⟨fun o ho hdo => ?_, ?_, fun r hr => ?_, fun hneg => absurd hpos (Int.not_le.2 hneg), fun _ => ?_⟩
  · rw [hsave]
    by_cases hlt : o < n
    · obtain ⟨r, hr, hholds⟩ := h.covers o hlt hdo
      rw [hold] at hr
      rcases List.mem_append.1 hr with hr | hr
      · exact ⟨r, List.mem_append_left _ hr, hholds⟩
      · obtain rfl := List.mem_singleton.1 hr
        refine ⟨_, List.mem_append_right _ (List.mem_singleton.2 rfl), ?_⟩
        obtain ⟨h1, h2, h3⟩ := hholds
        exact ⟨h1, by dsimp only at h2 ⊢; omega, h3⟩
    · have heq : o = n := by
        by_contra hne
        exact absurd (hpage o hdo (by omega)) (by omega)
      refine ⟨_, List.mem_append_right _ (List.mem_singleton.2 rfl), ?_⟩
      rw [heq]
      exact ⟨by dsimp only; omega, by dsimp only; omega, by dsimp only; omega⟩
  · rw [hsave]
    have hapart := h.apart
    rw [hold] at hapart
    obtain ⟨h1, -, h3⟩ := List.pairwise_append.1 hapart
    refine List.pairwise_append.2 ⟨h1, List.pairwise_singleton _ _, fun r hr r' hr' => ?_⟩
    obtain rfl := List.mem_singleton.1 hr'
    exact h3 r hr ⟨s.addr, s.size, s.offset, 0⟩ (List.mem_singleton.2 rfl)
  · rw [hsave] at hr
    rcases List.mem_append.1 hr with hr | hr
    · obtain ⟨h0, h1⟩ := h.inside r (by rw [hold]; exact List.mem_append_left _ hr)
      exact ⟨h0, by omega⟩
    · obtain rfl := List.mem_singleton.1 hr
      exact ⟨rfl, by dsimp only; omega⟩
  · exact ⟨n, by simp [PAGE_SIZE], hd, hpage, by dsimp only; omega, by dsimp only; omega, by dsimp only; omega⟩

theorem Scanned.page (h : Scanned load dirty n s) (he : Even load dirty mapping_size) (hd : dirty n) :
    Scanned load dirty (n + PAGE_SIZE) (addPage mapping_size s (load n) n) := by
  rw [addPage]
  split_ifs with hnew
  · exact h.start he hd
  · exact h.join he hd (by omega) (by omega)

theorem scan_ok (hw : WellFormed B) (hstart : ∀ o, Dirty original data size o → StartsIn B o)
    (he : Even (pageAddr B) (Dirty original data size) mapping_size) {m n : Nat} (hn : n = m * PAGE_SIZE)
    (hm : n ≤ size) :
    ∃ s, ((List.range m).map (· * PAGE_SIZE)).foldlM (refactorPage B original data mapping_size)
      ⟨INTPTR_MIN, 0, 0, []⟩ = .ok s ∧ Scanned (pageAddr B) (Dirty original data size) n s := by
  induction m generalizing n with
  | zero =>
      rw [Nat.zero_mul] at hn
      rw [hn]
      exact ⟨_, rfl, scanned_zero⟩
  | succ m ih =>
      have hsucc : n = m * PAGE_SIZE + PAGE_SIZE := by
        simp only [PAGE_SIZE] at hn ⊢
        omega
      have haligned : m * PAGE_SIZE % PAGE_SIZE = 0 := Nat.mul_mod_left m PAGE_SIZE
      have hlt : m * PAGE_SIZE < size := by
        simp only [PAGE_SIZE] at hsucc ⊢
        omega
      obtain ⟨s, hs, hscan⟩ := ih rfl (Nat.le_of_lt hlt)
      rw [List.range_succ, List.map_append, List.foldlM_append, hs, hsucc]
      by_cases hd : Dirty original data size (m * PAGE_SIZE)
      · exact ⟨_, bind_ok.mpr ⟨s, rfl, bind_ok.mpr ⟨_, refactorPage_dirty hw s hd (hstart _ hd), rfl⟩⟩,
          hscan.page he hd⟩
      · have hsame : samePage original data (m * PAGE_SIZE) = true := by
          by_contra hne
          exact hd ⟨haligned, hlt, Bool.eq_false_iff.2 hne⟩
        exact ⟨s, bind_ok.mpr ⟨s, rfl, bind_ok.mpr ⟨_, refactorPage_clean s hsame, rfl⟩⟩,
          hscan.clean haligned (fun o ho => ho.1) hd⟩

/-! ### Step #2 -/

/-- The bytes of the run are at its new place. -/
def Refactor.Copied (f : Refactor) (data final : Nat → UInt8) : Prop :=
  ∀ j < f.size, final (f.patched + j) = data (f.original + j)

def Refactor.Contains (r : Refactor) (p : Nat) : Prop := r.original ≤ p ∧ p < r.original + r.size

/-- Pages are moved behind the image, and the image is as it was where a run was moved away. -/
structure Moved (original data : Nat → UInt8) (pos : Nat) (runs placed : List Refactor)
    (final : Nat → UInt8) : Prop where
  same : placed.map (fun f => { f with patched := 0 }) = runs
  copied : ∀ f ∈ placed, f.Copied data final
  restored : ∀ p < pos, (∃ r ∈ runs, r.Contains p) → final p = original p
  kept : ∀ p < pos, (∀ r ∈ runs, ¬ r.Contains p) → final p = data p

theorem moveRun_bytes (data : Nat → UInt8) (pos : Nat) (acc : List Refactor) (r : Refactor) :
    (moveRun original (data, pos, acc) r).1 =
      restoreBytes original (copyBytes data pos r.original r.size) r.original r.size := rfl

theorem moveRun_copied {data : Nat → UInt8} {pos : Nat} {acc : List Refactor} {r : Refactor}
    (h : r.original + r.size ≤ pos) {j : Nat} (hj : j < r.size) :
    (moveRun original (data, pos, acc) r).1 (pos + j) = data (r.original + j) := by
  rw [moveRun_bytes, restoreBytes, if_neg (by omega), copyBytes, if_pos (by omega), Nat.add_sub_cancel_left]

theorem moveRun_restored {data : Nat → UInt8} {pos p : Nat} {acc : List Refactor} {r : Refactor}
    (h : r.Contains p) : (moveRun original (data, pos, acc) r).1 p = original p := by
  unfold Refactor.Contains at h
  rw [moveRun_bytes, restoreBytes, if_pos h]

theorem moveRun_kept {data : Nat → UInt8} {pos p : Nat} {acc : List Refactor} {r : Refactor}
    (hp : p < pos) (h : ¬ r.Contains p) : (moveRun original (data, pos, acc) r).1 p = data p := by
  unfold Refactor.Contains at h
  rw [moveRun_bytes, restoreBytes, if_neg h, copyBytes, if_neg (by omega)]

theorem moveRuns_ok {runs : List Refactor} (hsize : ∀ r ∈ runs, r.patched = 0 ∧ r.original + r.size ≤ size)
    (hapart : runs.Pairwise fun r r' => r.original + r.size ≤ r'.original) (data : Nat → UInt8) {pos : Nat}
    (hpos : size ≤ pos) (acc : List Refactor) :
    ∃ placed, (runs.foldl (moveRun original) (data, pos, acc)).2.2 = acc ++ placed ∧
      Moved original data pos runs placed (runs.foldl (moveRun original) (data, pos, acc)).1 := by
  induction runs generalizing data pos acc with
  | nil =>
      exact ⟨[], (List.append_nil _).symm, rfl, fun _ h => absurd h List.not_mem_nil,
        fun _ _ ⟨_, h, _⟩ => absurd h List.not_mem_nil, fun _ _ _ => rfl⟩
  | cons r runs ih =>
      obtain ⟨hfirst, hrest⟩ := List.pairwise_cons.1 hapart
      obtain ⟨hzero, hinside⟩ := hsize r List.mem_cons_self
      have hsize' : ∀ r' ∈ runs, r'.patched = 0 ∧ r'.original + r'.size ≤ size :=
        fun r' hr' => hsize r' (List.mem_cons_of_mem _ hr')
      have hbehind : ∀ p, size ≤ p → ∀ r' ∈ runs, ¬ r'.Contains p := by
        intro p hp r' hr' hcon
        have := (hsize' r' hr').2
        have := hcon.2
        omega
      have hother : ∀ p, r.Contains p → ∀ r' ∈ runs, ¬ r'.Contains p := by
        intro p hp r' hr' hcon
        have := hfirst r' hr'
        have := hp.2
        have := hcon.1
        omega
      rw [List.foldl_cons]
      have hpos' : size ≤ pos + r.size := Nat.le_add_right_of_le hpos
      obtain ⟨placed, hacc, hmoved⟩ := ih hsize' hrest (moveRun original (data, pos, acc) r).1 hpos'
        (acc ++ [{ r with patched := pos }])
      refine ⟨{ r with patched := pos } :: placed, ?_, ?_, ?_, ?_, ?_⟩
      · rw [List.append_assoc] at hacc
        exact hacc
      · rw [List.map_cons, hmoved.same, ← hzero]
      · intro f hf j hj
        rcases List.mem_cons.1 hf with rfl | hf
        · refine (hmoved.kept _ (by dsimp only at hj ⊢; omega) (hbehind _ (by dsimp only; omega))).trans ?_
          exact moveRun_copied (by omega) hj
        · refine (hmoved.copied f hf j hj).trans ?_
          have hmem : { f with patched := 0 } ∈ runs := by
            rw [← hmoved.same]
            exact List.mem_map_of_mem hf
          have hcon : Refactor.Contains { f with patched := 0 } (f.original + j) :=
            ⟨Nat.le_add_right _ _, Nat.add_lt_add_left hj _⟩
          have hin := (hsize' _ hmem).2
          dsimp only at hin
          exact moveRun_kept (by omega) fun h => hother _ h _ hmem hcon
      · rintro p hp ⟨r', hr', hcon⟩
        by_cases hr : r.Contains p
        · exact (hmoved.kept p (by omega) (hother p hr)).trans (moveRun_restored hr)
        · rcases List.mem_cons.1 hr' with rfl | hr'
          · exact absurd hcon hr
          · exact hmoved.restored p (by omega) ⟨r', hr', hcon⟩
      · intro p hp hnone
        refine (hmoved.kept p (by omega) fun r' hr' => hnone r' (List.mem_cons_of_mem _ hr')).trans ?_
        exact moveRun_kept hp (hnone r List.mem_cons_self)

/-! ### Segments -/

/-- An executable segment of the image. -/
structure Segment where
  offset : Nat
  vaddr : Int
  filesz : Nat

/-- The page at the offset is loaded at the address, for one of the segments. -/
def LoadedAt (segs : List Segment) (o : Nat) (a : Int) : Prop :=
  ∃ seg ∈ segs, seg.offset < o + PAGE_SIZE ∧ o < seg.offset + seg.filesz ∧ a = seg.vaddr + (o - seg.offset : Int)

/-- Segments can be mapped page by page, and instructions are where their segment is loaded. -/
structure Loads (segs : List Segment) (B : Binary) : Prop where
  congruent : ∀ seg ∈ segs, seg.vaddr % PAGE_SIZE = (seg.offset : Int) % PAGE_SIZE
  instrs : ∀ k < B.count, ∃ seg ∈ segs, seg.offset ≤ (B.Is k).offset ∧
    (B.Is k).offset < seg.offset + seg.filesz ∧ (B.Is k).addr = seg.vaddr + ((B.Is k).offset - seg.offset : Int)

/-- The dirty pages are loaded once each, and those that lie near each other in memory are as far from each
other in the file. -/
structure Regular (segs : List Segment) (dirty : Nat → Prop) (mapping_size : Nat) : Prop where
  once : ∀ o a a', dirty o → LoadedAt segs o a → LoadedAt segs o a' → a = a'
  lower : ∀ o a, dirty o → LoadedAt segs o a → 0 ≤ a
  near : ∀ p q a b, dirty p → dirty q → p < q → (∀ o, dirty o → p < o → q ≤ o) → LoadedAt segs p a →
    LoadedAt segs q b → b ≤ a + PAGE_SIZE + mapping_size → b - a = q - p

theorem pageAddr_loaded {segs : List Segment} (hl : Loads segs B) (hw : WellFormed B) {o : Nat}
    (ho : o % PAGE_SIZE = 0) (hs : StartsIn B o) :
    LoadedAt segs o (pageAddr B o) ∧ pageAddr B o % PAGE_SIZE = 0 := by
  obtain ⟨k, hk, hfirst⟩ | ⟨-, hnone⟩ := lower_bound_spec hw o
  · obtain ⟨seg, hseg, hle, hlt, haddr⟩ := hl.instrs k hfirst.known
    have hpage := hfirst.page_offset ho hs
    have hmod := hl.congruent seg hseg
    have hload : pageAddr B o = (B.Is k).addr - (B.Is k).addr % PAGE_SIZE := by rw [pageAddr, hk]
    rw [hload]
    simp only [PAGE_SIZE] at hpage hmod ⊢
    exact ⟨⟨seg, hseg, by simp only [PAGE_SIZE]; omega, by omega, by omega⟩, by omega⟩
  · obtain ⟨j, hj, hle, -⟩ := hs
    exact absurd (hnone j hj) (by omega)

theorem pageAddr_mono (hw : WellFormed B) {p q : Nat} (hp : p % PAGE_SIZE = 0) (hq : q % PAGE_SIZE = 0)
    (hlt : p < q) (hsp : StartsIn B p) (hsq : StartsIn B q) : pageAddr B p ≤ pageAddr B q := by
  obtain ⟨k, hk, hfirst⟩ | ⟨-, hnone⟩ := lower_bound_spec hw p
  · obtain ⟨k', hk', hfirst'⟩ | ⟨-, hnone⟩ := lower_bound_spec hw q
    · have hoff := hfirst.page_offset hp hsp
      have hoff' := hfirst'.page_offset hq hsq
      have horder : k' < k := by
        by_contra hge
        rcases Nat.lt_or_eq_of_le (Nat.not_lt.1 hge) with h | rfl
        · have := hw.offsets k k' h hfirst'.known
          simp only [PAGE_SIZE] at hoff hoff'
          omega
        · omega
      have haddr := hw.addrs k' k horder hfirst.known
      simp only [pageAddr, hk, hk', PAGE_SIZE]
      omega
    · obtain ⟨j, hj, hle, -⟩ := hsq
      exact absurd (hnone j hj) (by omega)
  · obtain ⟨j, hj, hle, -⟩ := hsp
    exact absurd (hnone j hj) (by omega)

theorem Regular.even {segs : List Segment} (hl : Loads segs B) (hw : WellFormed B)
    (hstart : ∀ o, Dirty original data size o → StartsIn B o)
    (hr : Regular segs (Dirty original data size) mapping_size) :
    Even (pageAddr B) (Dirty original data size) mapping_size := by
  refine ⟨fun o ho => ⟨ho.1, (pageAddr_loaded hl hw ho.1 (hstart o ho)).2⟩, fun o ho => ?_,
    fun p q hp hq hlt => pageAddr_mono hw hp.1 hq.1 hlt (hstart p hp) (hstart q hq), fun p q hp hq hlt hlast => ?_⟩
  · exact hr.lower o _ ho (pageAddr_loaded hl hw ho.1 (hstart o ho)).1
  · exact hr.near p q _ _ hp hq hlt hlast (pageAddr_loaded hl hw hp.1 (hstart p hp)).1
      (pageAddr_loaded hl hw hq.1 (hstart q hq)).1

/-! ### What the loader maps -/

/-- The mapping and the page at the address have a byte in common. -/
def Refactor.Meets (f : Refactor) (a : Int) : Prop := f.addr < a + PAGE_SIZE ∧ a < f.addr + f.size

instance (f : Refactor) (a : Int) : Decidable (f.Meets a) := inferInstanceAs (Decidable (_ ∧ _))

/-- Every dirty page is part of one mapping, with the patched bytes, and the image is as before patching. -/
structure Refactored (segs : List Segment) (original data : Nat → UInt8) (size : Nat)
    (r : (Nat → UInt8) × Nat × List Refactor) : Prop where
  covered : ∀ o a, Dirty original data size o → LoadedAt segs o a →
    ∃ f, r.2.2.filter (·.Meets a) = [f] ∧ f.addr ≤ a ∧ a + PAGE_SIZE ≤ f.addr + f.size ∧
      ∀ i < PAGE_SIZE, r.1 (f.patched + ((a - f.addr).toNat + i)) = data (o + i)
  restored : ∀ p < size, r.1 p = original p

theorem filter_eq_singleton {α : Type} {R : α → α → Prop} {P : α → Prop} [DecidablePred P] {l : List α}
    (hl : l.Pairwise R) {x : α} (hx : x ∈ l) (hP : P x) (hR : ∀ y, R x y ∨ R y x → ¬ P y) :
    l.filter (fun y => P y) = [x] := by
  induction l with
  | nil => exact absurd hx List.not_mem_nil
  | cons y l ih =>
      obtain ⟨hy, hl⟩ := List.pairwise_cons.1 hl
      rcases List.mem_cons.1 hx with rfl | hx
      · have hnil : l.filter (fun y => P y) = [] :=
          List.filter_eq_nil_iff.2 fun z hz h => hR z (.inl (hy z hz)) (of_decide_eq_true h)
        rw [List.filter_cons, if_pos (decide_eq_true hP), hnil]
      · have hne : ¬ decide (P y) = true := fun h => hR y (.inr (hy x hx)) (of_decide_eq_true h)
        rw [List.filter_cons, if_neg hne]
        exact ih hl hx

theorem paddedSize_mod (B : Binary) : paddedSize B % PAGE_SIZE = 0 := by
  unfold paddedSize PAGE_SIZE
  split_ifs with h
  · exact h
  · omega

theorem refactored {segs : List Segment} (hl : Loads segs B) (hw : WellFormed B) (hsize : size % PAGE_SIZE = 0)
    (hstart : ∀ o, Dirty original data size o → StartsIn B o)
    (hr : Regular segs (Dirty original data size) mapping_size) :
    ∃ r, emitRefactoredPatch B original data size mapping_size = .ok r ∧ Refactored segs original data size r := by
  have hpages : size = size / PAGE_SIZE * PAGE_SIZE := by
    simp only [PAGE_SIZE] at hsize ⊢
    omega
  obtain ⟨s, hs, hscan⟩ := scan_ok hw hstart (hr.even hl hw hstart) hpages (Nat.le_refl _)
  obtain ⟨placed, hplaced, hmoved⟩ := @moveRuns_ok original size s.save hscan.inside
    (hscan.apart.imp fun h => h.1) data size (Nat.le_refl size) []
  rw [List.nil_append] at hplaced
  refine ⟨_, bind_ok.mpr ⟨(), assert_ok.mpr hsize, bind_ok.mpr ⟨s, hs, rfl⟩⟩, fun o a ho ha => ?_, fun p hp => ?_⟩
  · obtain rfl := hr.once o _ _ ho ha (pageAddr_loaded hl hw ho.1 (hstart o ho)).1
    obtain ⟨run, hrun, hle, hend, hload⟩ := hscan.covers o ho.2.1 ho
    rw [← hmoved.same] at hrun
    obtain ⟨f, hf, rfl⟩ := List.mem_map.1 hrun
    dsimp only at hle hend hload
    have hapart : placed.Pairwise fun f g : Refactor => f.addr + f.size ≤ g.addr := by
      have h := hscan.apart
      rw [← hmoved.same, List.pairwise_map] at h
      exact h.imp fun h => h.2
    refine ⟨f, ?_, by omega, by omega, fun i hi => ?_⟩
    · rw [hplaced]
      refine filter_eq_singleton hapart hf ?_ fun g hg hmeets => ?_
      · unfold Refactor.Meets
        simp only [PAGE_SIZE] at hend ⊢
        omega
      · obtain ⟨h1, h2⟩ := hmeets
        rcases hg with h | h
        · omega
        · omega
    · have hpos : f.original + ((pageAddr B o - f.addr).toNat + i) = o + i := by omega
      rw [hmoved.copied f hf _ (by omega), hpos]
  · by_cases hcon : ∃ r ∈ s.save, r.Contains p
    · exact hmoved.restored p hp hcon
    · rw [hmoved.kept p hp fun r hr h => hcon ⟨r, hr, h⟩]
      have hsame : samePage original data (p - p % PAGE_SIZE) = true := by
        by_contra hne
        have hpage : Dirty original data size (p - p % PAGE_SIZE) :=
          ⟨by simp only [PAGE_SIZE]; omega, by omega, Bool.eq_false_iff.2 hne⟩
        obtain ⟨run, hrun, hle, hend, -⟩ := hscan.covers _ hpage.2.1 hpage
        refine hcon ⟨run, hrun, ?_⟩
        unfold Refactor.Contains
        simp only [PAGE_SIZE] at hle hend
        omega
      have h := samePage_iff.1 hsame (p % PAGE_SIZE) (by simp only [PAGE_SIZE]; omega)
      have hp' : p - p % PAGE_SIZE + p % PAGE_SIZE = p := by
        simp only [PAGE_SIZE]
        omega
      rw [hp'] at h
      exact h.symm

theorem starts_of_ok (hw : WellFormed B) {r : (Nat → UInt8) × Nat × List Refactor}
    (h : emitRefactoredPatch B original data size mapping_size = .ok r) :
    ∀ o, Dirty original data size o → StartsIn B o := by
  intro o ho
  obtain ⟨_, ha, h⟩ := bind_ok.mp h
  obtain ⟨s, hs, _⟩ := bind_ok.mp h
  have hsize := assert_ok.mp ha
  have hmem : o ∈ (List.range (size / PAGE_SIZE)).map (· * PAGE_SIZE) := by
    refine List.mem_map.2 ⟨o / PAGE_SIZE, List.mem_range.2 ?_, ?_⟩
    · obtain ⟨h1, h2, -⟩ := ho
      simp only [PAGE_SIZE] at h1 hsize ⊢
      omega
    · obtain ⟨h1, -, -⟩ := ho
      simp only [PAGE_SIZE] at h1 ⊢
      omega
  obtain ⟨l₁, l₂, hl⟩ := List.append_of_mem hmem
  rw [hl, List.foldlM_append, bind_ok] at hs
  obtain ⟨s₁, -, hs⟩ := hs
  rw [List.foldlM_cons, bind_ok] at hs
  obtain ⟨s₂, hs₂, -⟩ := hs
  exact startsIn_of_refactorPage_ok hw ho hs₂

/-- Where every changed page holds the start of an instruction, is loaded once, and lies as far from the changed
pages near it in memory as in the file, refactoring loses no page. Where a changed page holds no start of an
instruction, there is no output at all. -/
theorem refactored_pages {B : Binary} (hB : Reachable B) {segs : List Segment} (hl : Loads segs B)
    (mapping_size : Nat) :
    ((∀ o, Dirty B.original B.bytes (paddedSize B) o → StartsIn B o) ∧
        Regular segs (Dirty B.original B.bytes (paddedSize B)) mapping_size →
      ∃ r, refactorElf B mapping_size = .ok r ∧ Refactored segs B.original B.bytes (paddedSize B) r) ∧
    ((∃ r, refactorElf B mapping_size = .ok r) → ∀ o, Dirty B.original B.bytes (paddedSize B) o → StartsIn B o) := by
  have hw := hB.invariant.wellFormed
  refine ⟨fun ⟨hstart, hr⟩ => ?_, fun ⟨r, h⟩ => starts_of_ok hw h⟩
  exact refactored hl hw (paddedSize_mod B) hstart hr

def sampleSegment : Segment := ⟨0, 0x400000, 64⟩

theorem sampleSegment_loaded {o : Nat} {a : Int} (ho : o % PAGE_SIZE = 0)
    (h : LoadedAt [sampleSegment] o a) : o = 0 ∧ a = 0x400000 := by
  obtain ⟨seg, hseg, -, hlt, ha⟩ := h
  obtain rfl := List.mem_singleton.1 hseg
  simp only [sampleSegment, PAGE_SIZE] at ho hlt ha
  omega

theorem sample_loads : Loads [sampleSegment] sampleBinary :=
  ⟨by decide, by decide +kernel⟩

/-- The page of the sample is moved. -/
theorem sample_refactored : Dirty sampleBinary.original sampleBinary.bytes (paddedSize sampleBinary) 0 ∧
    ∃ r, refactorElf sampleBinary PAGE_SIZE = .ok r ∧
      Refactored [sampleSegment] sampleBinary.original sampleBinary.bytes (paddedSize sampleBinary) r := by
  have hsize : paddedSize sampleBinary = PAGE_SIZE := by decide +kernel
  have hzero : ∀ o, Dirty sampleBinary.original sampleBinary.bytes (paddedSize sampleBinary) o → o = 0 := by
    rintro o ⟨h1, h2, -⟩
    rw [hsize] at h2
    simp only [PAGE_SIZE] at h1 h2
    omega
  have hdirty : samePage sampleBinary.original sampleBinary.bytes 0 = false := by
    rw [Bool.eq_false_iff, ne_eq, samePage_iff]
    intro h
    exact absurd (h 4 (by decide)) (by decide +kernel)
  refine ⟨⟨rfl, by rw [hsize]; decide, hdirty⟩,
    (refactored_pages sample_reachable sample_loads PAGE_SIZE).1 ⟨fun o ho => ?_, ?_, ?_, ?_⟩⟩
  · rw [hzero o ho]
    exact ⟨3, by decide +kernel, by decide +kernel, by decide +kernel⟩
  · intro o a a' ho ha ha'
    rw [(sampleSegment_loaded ho.1 ha).2, (sampleSegment_loaded ho.1 ha').2]
  · intro o a ho ha
    rw [(sampleSegment_loaded ho.1 ha).2]
    decide
  · intro p q a b hp hq hlt
    rw [hzero p hp, hzero q hq] at hlt
    exact absurd hlt (Nat.lt_irrefl 0)

/-! ### A page without the start of an instruction -/

/-- `mov $0x90909090,%eax` over the end of a page. -/
def edgeFile : File :=
  { size := 8192
    bytes := fun p => if p < 0xffe then 0 else byteAt [0xb8, 0x90, 0x90, 0x90, 0x90] (p - 0xffe)
    pic := true, segments := [(0x400000, 0x402000)], image_size := 0 }

def edgeMessages : Except Fault Binary := do
  let B ← parseBinary edgeFile .ELF_EXE defaultOptions none
  [.instruction [0x400ffe] [5] [0xffe], .patch [sampleTemplate] [0xffe] []].foldlM parseMessage B

def edgeRun : Except Fault Binary := do
  let B ← edgeMessages
  let B ← unqueue 0 B
  let r ← Binary.patch 0 (.user sampleTemplate) B
  .ok r.1

def edgeBinary : Binary := edgeRun.toOption.getD (newBinary edgeFile .ELF_EXE defaultOptions)

theorem edge_reachable : Reachable edgeBinary := by
  have h : edgeRun = .ok edgeBinary := ok_getD (by decide +kernel)
  obtain ⟨B₁, h₁, h⟩ := bind_ok.mp h
  obtain ⟨B₂, h₂, h⟩ := bind_ok.mp h
  obtain ⟨r, hr, h⟩ := bind_ok.mp h
  rw [← Except.ok.inj h]
  have hc₁ : B₁.count = 1 := by
    have hcount : edgeMessages.toOption.map (·.count) = some 1 := by decide +kernel
    rw [h₁] at hcount
    exact Option.some.inj hcount
  obtain ⟨B₀, h₀, h₁⟩ := bind_ok.mp h₁
  have hB₁ : Reachable B₁ := reachable_of_messages h₀ h₁
  have hs₂ : Step B₁ B₂ := .dequeue 0 (by omega) h₂
  have hc₂ := (hs₂.ok hB₁.invariant.wellFormed).count
  exact (hB₁.step hs₂).step (.patch 0 sampleTemplate (by omega) hr)

/-- The jump reaches into a page that no instruction starts in, and there is no output. -/
theorem straddled_page_lost : ∃ B segs, Reachable B ∧ Loads segs B ∧
    (∃ o a, Dirty B.original B.bytes (paddedSize B) o ∧ LoadedAt segs o a) ∧
    ¬ ∃ r, refactorElf B PAGE_SIZE = .ok r ∧ Refactored segs B.original B.bytes (paddedSize B) r := by
  have hsize : paddedSize edgeBinary = 8192 := by decide +kernel
  have hcount : edgeBinary.count = 1 := by decide +kernel
  have hoff : (edgeBinary.Is 0).offset = 0xffe := by decide +kernel
  have hdirty : samePage edgeBinary.original edgeBinary.bytes 0x1000 = false := by
    rw [Bool.eq_false_iff, ne_eq, samePage_iff]
    intro h
    exact absurd (h 0 (by decide)) (by decide +kernel)
  have hpage : Dirty edgeBinary.original edgeBinary.bytes (paddedSize edgeBinary) 0x1000 :=
    ⟨rfl, by rw [hsize]; decide, hdirty⟩
  refine ⟨edgeBinary, [⟨0, 0x400000, 0x2000⟩], edge_reachable, ⟨by decide, by decide +kernel⟩,
    ⟨0x1000, 0x401000, hpage, ⟨0, 0x400000, 0x2000⟩, List.mem_singleton.2 rfl, by decide, by decide, by decide⟩, ?_⟩
  rintro ⟨r, hr, -⟩
  obtain ⟨k, hk, hle, -⟩ := starts_of_ok edge_reachable.invariant.wellFormed hr 0x1000 hpage
  obtain rfl : k = 0 := by omega
  omega

end E9Patch
