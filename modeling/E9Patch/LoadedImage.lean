import E9Patch.AllocatorRuns
import E9Patch.ImageEntries

/-!
The image in memory. Once the loader has mapped the image, every trampoline of a run is where the jumps into it lead,
with its bytes and its protections, and the pages of the program itself are not mapped over.
-/

namespace E9Patch
open Bytes Overlay Intervals Fallible PtrTree

variable {τ ι : Type} {debug : Bool}

/-! ### The loaded image -/

/-- The bytes of the trampolines of the allocator, as flattening allocates them. -/
def CodeOf (t : Tree τ ι) (code : Nat → Option (List UInt8)) : Prop := ∀ ids, Balanced t ids → HasCode t ids code

/-- When an image can be loaded: its mappings have less than 2^16 pages each, the file has a size, what is written to
it later stays off the mappings, and neither refactored pages nor addresses of the other kind lie over a trampoline. -/
structure Loadable (B : Binary) (options : MemOptions) (size : Nat) (refactors : List Refactor) (image : Image)
    (file : Nat → UInt8) (elf_base : Int) : Prop where
  mode : B.mode = .ELF_EXE ∨ B.mode = .ELF_DSO
  mapping_size : mappingSize B.mode options < 2 ^ 16 * PAGE_SIZE
  pages : PAGE_SIZE ∣ size
  fits : (image.file.size : Int) ≤ INTPTR_MAX
  file : ∀ j, size ≤ j → j < image.file.size → file j = image.file.data j
  refactors : ∀ r ∈ refactors, (PAGE_SIZE : Int) ∣ r.addr ∧ ∀ n, Live B.allocator n → (B.alloc n).T.isSome →
    r.addr + r.size ≤ (B.alloc n).lb ∨ (B.alloc n).ub ≤ r.addr
  apart : ∀ e ∈ image.maps.1 ++ image.maps.2, ∀ e' ∈ image.maps.1 ++ image.maps.2, e.abs = true → e'.abs = false →
    ∀ y, ¬((e9load_map elf_base e).Covers y ∧ (e9load_map elf_base e').Covers y)

/-- A trampoline is in a mapping that was shrunk and is in the file. -/
theorem ImageOf.reach {t : Tree τ ι} {attr : Attributes τ} {code : Nat → Option (List UInt8)} {s : Shape Nat}
    {SIZE size : Nat} {refactors : List Refactor} {image : Image}
    (hi : ImageOf t attr code s.inorder SIZE size refactors image) (hl : Linked t s) (hpos : 0 < SIZE)
    (hmin : (SIZE : Int) ∣ INTPTR_MIN) {n : Nat} (hn : n ∈ s.inorder) {T : τ} (hT : (t.heap.alloc n).T = some T)
    (hlow : INTPTR_MIN + SIZE ≤ (t.heap.alloc n).lb) {x : Int} (hlb : (t.heap.alloc n).lb ≤ x)
    (hub : x < (t.heap.alloc n).ub) :
    ∃ p ∈ image.file.chains, ∃ m ∈ p.2, m.Covers x ∧ m.prot.Allows (attr.prot T) := by
  have hsome : (t.heap.alloc n).T.isSome := by
    rw [hT]
    rfl
  obtain ⟨m₀, hm₀, hx1, hx2⟩ := coverMappings_reach hl hpos hn hsome hlow hlb hub
  obtain ⟨p, hp, m, hm, hshrinks⟩ := hi.all m₀ hm₀
  have hcovers := ((coverMappings_spec hl hpos hmin).1 m₀ hm₀).1
  have hsize := hcovers.size
  have hocc : OffsetOccupied t s.inorder m₀ (x - m₀.base) :=
    ⟨by omega, by omega, n, hn, hsome, by omega, by omega⟩
  obtain ⟨h1, h2⟩ := hshrinks.occupied _ hocc
  refine ⟨p, hp, m, hm, ⟨by omega, by omega⟩, ?_⟩
  rw [hshrinks.prot]
  obtain ⟨hsorted, -, -, hfrom⟩ := (show Starts t s.inorder m₀ from
    ⟨hcovers.split, fun h => Int.le_of_lt (hcovers.lower h)⟩).from hl
  exact protectionsLoop_allows hsorted (hfrom n hn hsome (by omega)) hT (by omega) _

section
variable {B : Binary} {options : MemOptions} {size : Nat} {refactors : List Refactor} {image : Image}
  {file : Nat → UInt8} {elf_base : Int}

/-- Entries that are loaded over one address are both absolute or both not. -/
theorem Loadable.abs_eq (hload : Loadable B options size refactors image file elf_base) {e e' : e9_map_s}
    (he : e ∈ image.maps.1 ++ image.maps.2) (he' : e' ∈ image.maps.1 ++ image.maps.2) {y : Int}
    (hc : (e9load_map elf_base e).Covers y) (hc' : (e9load_map elf_base e').Covers y) : e.abs = e'.abs := by
  cases h1 : e.abs with
  | false =>
      cases h2 : e'.abs with
      | false => rfl
      | true => exact absurd ⟨hc', hc⟩ (hload.apart e' he' e he h2 h1 _)
  | true =>
      cases h2 : e'.abs with
      | false => exact absurd ⟨hc, hc'⟩ (hload.apart e he e' he' h1 h2 _)
      | true => rfl

/-- The file has the byte of a trampoline where the mapping that covers it lies in the file. -/
theorem Loadable.file_byte (hload : Loadable B options size refactors image file elf_base)
    {attr : Attributes Trampoline} {code : Nat → Option (List UInt8)} {s : Shape Nat} {SIZE : Nat}
    (hi : ImageOf B.allocator attr code s.inorder SIZE size refactors image) (hl : Linked B.allocator s)
    (hcode : HasCode B.allocator s.inorder code) {p : Nat × List SavedMapping} (hp : p ∈ image.file.chains)
    {m : SavedMapping} (hm : m ∈ p.2) {n : Nat} (hn : n ∈ s.inorder) {x : Int} {b : UInt8}
    (hx : CodeAt B.allocator code n x b) (hmx : m.Covers x) : file (p.1 + (x - m.base).toNat) = b := by
  have hchain := hi.emittable p hp
  have hem := hi.emitted p hp
  have hsize := hchain.size m hm
  obtain ⟨data, hdata⟩ := hem.data
  have hup := hem.upper
  have hlo := hem.lower
  obtain ⟨hmx1, hmx2⟩ := hmx
  rw [hload.file _ (by omega) (by omega), hdata _ (by omega) (by omega)]
  exact flattenMapping_shows hl hcode hchain.starts hchain.separate hm hn hx hmx1 hmx2 data p.1 0xcc

end

/-- Once the loader has made its calls, every byte of a trampoline is at its run-time address. -/
theorem image_loaded {B : Binary} (attr : Attributes Trampoline) {code : Nat → Option (List UInt8)}
    (hcode : CodeOf B.allocator code) {options : MemOptions} {data : Nat → UInt8} {size : Nat}
    {refactors : List Refactor} {image : Image}
    (h : emitImage debug B attr code options data size refactors = .ok image)
    {file : Nat → UInt8} {elf_base : Int} (hload : Loadable B options size refactors image file elf_base)
    {n : Nat} (hn : Live B.allocator n) {T : Trampoline} (hT : (B.alloc n).T = some T)
    (hlow : INTPTR_MIN + mappingSize B.mode options ≤ (B.alloc n).lb) {x : Int} {b : UInt8}
    (hx : CodeAt B.allocator code n x b) (memory : Int → Option MappedByte) :
    ∃ prot : Protection, loadMaps file elf_base image.maps memory (runtimeAddress elf_base x) = some ⟨b, prot⟩ ∧
      prot.Allows (attr.prot T) := by
  obtain ⟨ids, hbal, hn⟩ := hn
  have hHas := hcode ids hbal
  obtain ⟨s, hv, -, rfl⟩ := id hbal
  have hl := hv.toLinked
  obtain ⟨-, hpos, hpages, hmin, -, -⟩ := mappingSize_elf hload.mode options
  have hi := emitImage_spec hload.mode hl hHas hload.pages h
  obtain ⟨p, hp, m, hm, hmx, hprot⟩ := hi.reach hl hpos hmin hn hT hlow hx.1 hx.2.1
  refine ⟨m.prot, ?_, hprot⟩
  -- the byte in the file
  have hsome : (B.allocator.heap.alloc n).T.isSome := by
    show (B.alloc n).T.isSome = true
    rw [hT]
    rfl
  have hchain := hi.emittable p hp
  obtain ⟨hmx1, hmx2⟩ := hmx
  have hbyte := hload.file_byte hi hl hHas hp hm hn hx ⟨hmx1, hmx2⟩
  -- a request that covers it
  obtain ⟨hsorted, -, -, hfrom⟩ := (hchain.starts m hm).from hl
  have hfits : (m.size : Int) ≤ INTPTR_MAX := by
    have hfits := hload.fits
    have hsize := hchain.size m hm
    have hup := (hi.emitted p hp).upper
    omega
  have hpage : 0 < PAGE_SIZE := by decide
  obtain ⟨bd, hbd, hbd1, hbd2⟩ := virtualLoop_covers (t := B.allocator) hpage (by omega) hsorted
    (hfrom n hn hsome (Int.lt_of_le_of_lt hmx1 hx.2.1)) (by rw [hHas.isSome n hn]; exact hsome) hx.1 hx.2.1 hmx1 hmx2
    (INTPTR_MAX, INTPTR_MIN) []
  obtain ⟨q, hq, hqr, hqaddr, hqlen⟩ := levelRequests_mem hp hm hbd
  have hqx : q.Covers x := ⟨by omega, by omega⟩
  obtain ⟨e, he, hqe⟩ := forall₂_left hi.entries (a := q) (by
    rcases hq with hq | hq
    · exact List.mem_append_left _ (List.mem_append_left _ hq)
    · exact List.mem_append_right _ hq)
  obtain ⟨hecovers, -, heshows⟩ := hi.loads hl hload.mapping_size hload.fits hp hm hqr hqe elf_base hqx
  have heabs : e.abs = decide (IS_ABSOLUTE x) := hi.absolute hl hload.mapping_size hp hm hqr hqe hqx
  have habs : ∀ e' ∈ image.maps.1 ++ image.maps.2, (e9load_map elf_base e').Covers (runtimeAddress elf_base x) →
      e'.abs = decide (IS_ABSOLUTE x) := fun e' he' hc =>
    (hload.abs_eq he he' hecovers hc).symm.trans heabs
  -- what any call for the address shows
  have hall : ∀ c ∈ e9load_maps elf_base image.maps.1 ++ e9load_maps elf_base image.maps.2,
      c.Covers (runtimeAddress elf_base x) → c.shows file (runtimeAddress elf_base x) = ⟨b, m.prot⟩ := by
    intro c hc hcx
    unfold e9load_maps at hc
    rw [← List.map_append] at hc
    obtain ⟨e', he', rfl⟩ := List.mem_map.mp hc
    have habs' := habs e' he' hcx
    rcases hi.request he' with ⟨q', p', m', hp', hm', hr', hqe'⟩ | ⟨r, hr, hqe'⟩
    · have hq'x := hqe'.covers (hi.request_pages hl hload.mapping_size hp' hm' hr') habs' hcx
      obtain ⟨-, hm'x, hshows⟩ := hi.loads hl hload.mapping_size hload.fits hp' hm' hr' hqe' elf_base hq'x
      obtain ⟨rfl, rfl⟩ := hi.unique p hp p' hp' m hm m' hm' x ⟨hmx1, hmx2⟩ hm'x
      rw [hshows, hbyte]
    · obtain ⟨hdvd, hapart⟩ := hload.refactors r hr
      obtain ⟨h1, h2⟩ := hqe'.covers (q := refactorRequest r) hdvd habs' hcx
      have h3 : r.addr ≤ x := h1
      have h4 : x < r.addr + r.size := h2
      have h5 := hx.1
      have h6 := hx.2.1
      have := hapart n ⟨_, hbal, hn⟩ hsome
      simp only [Binary.alloc] at this
      omega
  unfold loadMaps
  rw [← List.foldl_append]
  apply mmap_of_agree hall
  refine ⟨e9load_map elf_base e, ?_, hecovers⟩
  unfold e9load_maps
  rw [← List.map_append]
  exact List.mem_map.mpr ⟨e, he, rfl⟩

/-! ### Reserved pages -/

theorem emitLoaderMap_type {addr offset : Int} {len type : Nat} {r w x : Bool} {ub ub' : Option Int} {m : e9_map_s}
    (h : emitLoaderMap addr len offset r w x type ub = .ok (m, ub')) : m.type = type % 4 := by
  unfold emitLoaderMap at h
  simp only at h
  split at h
  · cases h
  split at h
  · cases h
  split at h
  · cases h
  obtain rfl : _ = m := congrArg Prod.fst (Except.ok.inj h)
  rfl

/-- No part of a mapping that is mapped has a byte of a page that is reserved. -/
theorem getVirtualBounds_avoids {t : Tree τ ι} {s : Shape Nat} (hl : Linked t s) {code : Nat → Option (List UInt8)}
    (hcode : HasCode t s.inorder code) {m : Mapping} (hm : Starts t s.inorder m) (hbase : (PAGE_SIZE : Int) ∣ m.base)
    {r : Nat} (hr : r ∈ s.inorder) (hT : (t.heap.alloc r).T = none) (hlb : (PAGE_SIZE : Int) ∣ (t.heap.alloc r).lb)
    (hub : (PAGE_SIZE : Int) ∣ (t.heap.alloc r).ub) :
    ∀ b ∈ getVirtualBounds t code m PAGE_SIZE, Avoids m.base (t.heap.alloc r).lb (t.heap.alloc r).ub b := by
  have hnone : code r = none := by
    have h := hcode.isSome r hr
    rw [hT] at h
    exact Option.not_isSome_iff_eq_none.mp (by rw [h]; exact Bool.false_ne_true)
  obtain ⟨hsorted, -, hbelow, -⟩ := hm.from hl
  obtain ⟨as, bs, hsplit, -⟩ := hm.split
  unfold getVirtualBounds
  have hfrom := from_eq hl hsplit
  rw [hsplit] at hr
  rcases List.mem_append.mp hr with hr | hr
  · have hall := hl.ordered.1
    rw [hsplit] at hall
    have hafter := (sorted_append.mp hall).2.2 r hr
    rw [hfrom]
    exact virtualLoop_after (by decide) (Int.dvd_sub hub hbase) hafter (Or.inr rfl) (by simp)
  · rw [← hfrom] at hr
    exact virtualLoop_avoids (by decide) (Int.dvd_sub hlb hbase) (Int.dvd_sub hub hbase) hnone hsorted hbelow hr
      (Or.inr rfl) (by simp)

/-- An entry that is not for a refactoring is not loaded over a page that is reserved. -/
theorem reserved_unmapped {B : Binary} {attr : Attributes Trampoline} {code : Nat → Option (List UInt8)}
    (hcode : CodeOf B.allocator code) {options : MemOptions} {data : Nat → UInt8} {size : Nat}
    {refactors : List Refactor} {image : Image}
    (h : emitImage debug B attr code options data size refactors = .ok image)
    (hmode : B.mode = .ELF_EXE ∨ B.mode = .ELF_DSO) (hmax : mappingSize B.mode options < 2 ^ 16 * PAGE_SIZE)
    (hpages : PAGE_SIZE ∣ size) {r : Nat} (hr : Live B.allocator r) (hT : (B.alloc r).T = none)
    (hlb : (PAGE_SIZE : Int) ∣ (B.alloc r).lb) (hub : (PAGE_SIZE : Int) ∣ (B.alloc r).ub) {x : Int}
    (hx : (B.alloc r).lb ≤ x ∧ x < (B.alloc r).ub) {e : e9_map_s} (he : e ∈ image.maps.1 ++ image.maps.2)
    (htype : e.type ≠ E9_TYPE_REFACTOR) (habs : e.abs = decide (IS_ABSOLUTE x)) (elf_base : Int) :
    ¬(e9load_map elf_base e).Covers (runtimeAddress elf_base x) := by
  obtain ⟨ids, hbal, hr⟩ := hr
  have hHas := hcode ids hbal
  obtain ⟨s, hv, -, rfl⟩ := id hbal
  have hl := hv.toLinked
  have hi := emitImage_spec hmode hl hHas hpages h
  intro hc
  rcases hi.request he with ⟨q, p, m, hp, hm, hq, hqe⟩ | ⟨f, -, ub, ub', hfe⟩
  · have hqx := hqe.covers (hi.request_pages hl hmax hp hm hq) habs hc
    obtain ⟨b, hb, haddr, hlen, -⟩ := hq.part
    obtain ⟨hpart, hbase, -⟩ := hi.part hl hmax hp hm hb
    have horder := hpart.order
    obtain ⟨h1, h2⟩ := hqx
    have hx : (B.allocator.heap.alloc r).lb ≤ x ∧ x < (B.allocator.heap.alloc r).ub := hx
    rcases getVirtualBounds_avoids hl hHas ((hi.emittable p hp).starts m hm) hbase hr hT hlb hub b hb with h3 | h3
    · omega
    · omega
  · apply htype
    rw [emitLoaderMap_type hfe]
    rfl

/-- Whole pages with the range of a segment are allocated, without a trampoline. -/
def SegmentReserved (t : Tree Trampoline Nat) (segment : Int × Int) : Prop :=
  ∃ r, Live t r ∧ (t.heap.alloc r).T = none ∧ (PAGE_SIZE : Int) ∣ (t.heap.alloc r).lb ∧
    (PAGE_SIZE : Int) ∣ (t.heap.alloc r).ub ∧ ∀ x y, segment.1 ≤ x → x < segment.2 → y / PAGE_SIZE = x / PAGE_SIZE →
      (t.heap.alloc r).lb ≤ y ∧ y < (t.heap.alloc r).ub

theorem SegmentReserved.keeps {t t' : Tree Trampoline Nat} {segment : Int × Int} (h : SegmentReserved t segment)
    (hk : KeepsAllocations t t') : SegmentReserved t' segment := by
  obtain ⟨r, hr, h⟩ := h
  obtain ⟨hr', hrec⟩ := hk.live hr
  refine ⟨r, hr', ?_⟩
  rw [hrec]
  exact h

theorem reserveSegment_reserves {B B' : Binary} {segment : Int × Int} (hB : B.Allocates)
    (h : reserveSegment B segment = .ok B') :
    KeepsAllocations B.allocator B'.allocator ∧ SegmentReserved B'.allocator segment := by
  obtain ⟨t, r, ht, rfl⟩ := reserve_inv (reserveSegment_ok h)
  refine ⟨reserve_keeps hB ht, r, ?_⟩
  obtain ⟨ids, hb⟩ := hB
  obtain ⟨-, -, entry, hadded⟩ := reserve_ok hb ht
  obtain ⟨hlive, hrec⟩ := hadded.live
  simp only [hrec, PAGE_SIZE]
  refine ⟨hlive, trivial, ?_, ?_, fun x y h1 h2 hpage => ?_⟩
  · omega
  · split_ifs <;> omega
  · split_ifs <;> omega

theorem reserveSegments_reserve {segments : List (Int × Int)} {B B' : Binary} (hB : B.Allocates)
    (h : segments.foldlM reserveSegment B = .ok B') : KeepsAllocations B.allocator B'.allocator ∧
      ∀ segment ∈ segments, SegmentReserved B'.allocator segment := by
  induction segments generalizing B with
  | nil =>
      obtain rfl : B = B' := by simpa using h
      exact ⟨.of_eq hB rfl, fun segment hs => (nomatch hs)⟩
  | cons segment segments ih =>
      rw [List.foldlM_cons, bind_ok] at h
      obtain ⟨C, hC, h⟩ := h
      obtain ⟨hk, hs⟩ := reserveSegment_reserves hB hC
      obtain ⟨hk', hs'⟩ := ih hk.balanced h
      refine ⟨hk.trans hk', fun seg hseg => ?_⟩
      rcases List.mem_cons.mp hseg with rfl | hseg
      · exact hs.keeps hk'
      · exact hs' seg hseg

/-- In every state of a run the segments of the file are reserved. -/
theorem segments_reserved {file : File} {mode : Mode} {options : Options} {analysis : Option (Nat → Bool)}
    {B₀ B : Binary} (h₀ : parseBinary file mode options analysis = .ok B₀) (hr : Runs B₀ B) {segment : Int × Int}
    (hs : segment ∈ file.segments) : SegmentReserved B.allocator segment := by
  have hi := parseBinary_invariant h₀
  obtain ⟨C, hC, h⟩ := bind_ok.mp h₀
  have hreserved := (reserveSegments_reserve (newBinary_wellFormed file mode options).allocates hC).2 segment hs
  have hsame := ((disableTraps_same C).trans (targetAnalysis_same _ analysis)).eq
  cases h
  refine SegmentReserved.keeps ?_ (hr.keeps hi)
  rw [hsame]
  exact hreserved

/-! ### The bytes that flattening leaves -/

/-- The bytes of a trampoline. -/
def Flattened.bytes (s : Flattened) (n : Nat) : Option (List UInt8) :=
  (s.code.find? fun c => c.1 = n).map fun c => c.2.1

theorem flattenPrologue_length {B : Binary} {fill : UInt8} {addr presize : Int} {I : Option Nat}
    {r : List UInt8 × List (Nat × Int)} (h : flattenPrologue B fill addr presize I = .ok r) :
    r.1.length = presize.toNat := by
  unfold flattenPrologue at h
  split at h
  · obtain ⟨J, -, h⟩ := bind_ok.mp h
    obtain ⟨⟨_, buf, entries⟩, -, h⟩ := bind_ok.mp h
    obtain ⟨_, hu, h⟩ := bind_ok.mp h
    rw [assert_ok] at hu
    cases h
    dsimp only
    split_ifs with hzero
    · exact List.length_replicate
    · have hsize : (buf.data.length : Int) = presize := hu.resolve_right hzero
      omega
  · cases h
    simp only [List.length_nil]
    omega

theorem flattenTrampoline_length {B : Binary} {size : Nat} {fill : UInt8} {addr offset32 entry32 : Int}
    {T : Trampoline} {I : Option Nat} {r : List UInt8 × List (Nat × Int)}
    (h : flattenTrampoline B size fill addr offset32 entry32 T I = .ok r)
    (hentry : signed32 (entry32 - offset32) ≤ size) : r.1.length = size := by
  unfold flattenTrampoline at h
  obtain ⟨a, -, h⟩ := bind_ok.mp h
  simp only at h
  split at h
  · cases h
  obtain ⟨pre, hpre, h⟩ := bind_ok.mp h
  obtain ⟨buf, -, h⟩ := bind_ok.mp h
  obtain ⟨_, hu, h⟩ := bind_ok.mp h
  rw [assert_ok] at hu
  cases h
  have hlen := flattenPrologue_length hpre
  have hbuf : buf.data.length ≤ size - (signed32 (entry32 - offset32)).toNat := hu
  simp only [List.length_append, List.length_replicate, Buffer.size, hlen]
  omega

/-- A reservation whose entry is inside it is filled up to its end. -/
theorem flattenAlloc_length {B : Binary} {A : Alloc Trampoline Nat} (hentry : (A.entry : Int) ≤ A.ub - A.lb)
    {r : List UInt8 × List (Nat × Int)} (h : flattenAlloc B A = .ok (some r)) : (r.1.length : Int) = A.ub - A.lb := by
  unfold flattenAlloc at h
  split at h
  · cases h
  simp only at h
  obtain ⟨r', hr, h⟩ := bind_ok.mp h
  cases h
  rw [flattenTrampoline_length hr]
  · omega
  · -- the size of the prologue is the entry, as far as that has 32 bits
    apply Int.le_trans (b := (A.entry : Int))
    · unfold signed32
      omega
    · omega

theorem flattenNext_code {B : Binary} {s s' : Flattened} {n : Nat} (hB : s.B.allocator = B.allocator)
    (h : flattenNext s n = .ok s') : s'.B.allocator = B.allocator ∧
      ((B.alloc n).T = none ∧ s'.code = s.code ∨
        (B.alloc n).T.isSome ∧ ∃ r, flattenAlloc s.B (B.alloc n) = .ok (some r) ∧ s'.code = s.code ++ [(n, r)]) := by
  have hrec : s.B.alloc n = B.alloc n := by
    unfold Binary.alloc
    rw [hB]
  unfold flattenNext at h
  dsimp only at h
  rw [hrec] at h
  obtain ⟨o, ho, h⟩ := bind_ok.mp h
  cases hT : (B.alloc n).T with
  | none =>
      rw [hT] at h
      cases h
      exact ⟨hB, Or.inl ⟨rfl, rfl⟩⟩
  | some T =>
      rw [hT] at h
      cases o with
      | none =>
          unfold flattenAlloc at ho
          rw [hT] at ho
          obtain ⟨_, -, ho⟩ := bind_ok.mp ho
          cases ho
      | some r =>
          cases h
          refine ⟨?_, Or.inr ⟨rfl, r, ho, rfl⟩⟩
          have hentries : ∀ (es : List (Nat × Int)) (C : Binary), C.allocator = B.allocator →
              (es.foldl (fun B e => setTrampolineEntry B e.1 e.2) C).allocator = B.allocator := by
            intro es
            induction es with
            | nil => exact fun C hC => hC
            | cons e es ih => exact fun C hC => ih _ hC
          exact hentries _ _ hB

/-- After flattening, each trampoline whose entry is inside it has its bytes. -/
theorem flattenAllTrampolines_code {B : Binary} {f : Flattened} (h : flattenAllTrampolines B = .ok f)
    (hentry : ∀ n, Live B.allocator n → (B.alloc n).T.isSome →
      ((B.alloc n).entry : Int) ≤ (B.alloc n).ub - (B.alloc n).lb) : CodeOf B.allocator f.bytes := by
  intro ids hbal
  obtain ⟨s, hv, -, rfl⟩ := id hbal
  have hrun : ∀ (ns : List Nat) (s f : Flattened) (done : List Nat), ns.foldlM flattenNext s = .ok f →
      s.B.allocator = B.allocator → (∀ n ∈ ns, Live B.allocator n) →
      (∀ c ∈ s.code, c.1 ∈ done ∧ (B.alloc c.1).T.isSome ∧ (c.2.1.length : Int) = (B.alloc c.1).ub - (B.alloc c.1).lb) →
      (∀ n ∈ done, (B.alloc n).T.isSome → ∃ c ∈ s.code, c.1 = n) →
      (∀ c ∈ f.code, (B.alloc c.1).T.isSome ∧ (c.2.1.length : Int) = (B.alloc c.1).ub - (B.alloc c.1).lb) ∧
      ∀ n ∈ done ++ ns, (B.alloc n).T.isSome → ∃ c ∈ f.code, c.1 = n := by
    intro ns
    induction ns with
    | nil =>
        intro s f done h _ _ h1 h2
        obtain rfl : s = f := by simpa using h
        rw [List.append_nil]
        exact ⟨fun c hc => (h1 c hc).2, h2⟩
    | cons n ns ih =>
        intro s f done h hB hlive h1 h2
        rw [List.foldlM_cons, bind_ok] at h
        obtain ⟨s', hs', h⟩ := h
        obtain ⟨hB', hcode⟩ := flattenNext_code hB hs'
        rw [show done ++ n :: ns = (done ++ [n]) ++ ns by simp]
        refine ih s' f (done ++ [n]) h hB' (fun m hm => hlive m (List.mem_cons_of_mem _ hm)) (fun c hc => ?_)
          fun m hm hT => ?_
        · rcases hcode with ⟨-, heq⟩ | ⟨hT, r, hr, heq⟩
          · rw [heq] at hc
            obtain ⟨h3, h4⟩ := h1 c hc
            exact ⟨List.mem_append_left _ h3, h4⟩
          · rw [heq] at hc
            rcases List.mem_append.mp hc with hc | hc
            · obtain ⟨h3, h4⟩ := h1 c hc
              exact ⟨List.mem_append_left _ h3, h4⟩
            · rw [List.mem_singleton.mp hc]
              exact ⟨by simp, hT, flattenAlloc_length (hentry n (hlive n List.mem_cons_self) hT) hr⟩
        · rcases hcode with ⟨hnone, heq⟩ | ⟨-, r, -, heq⟩
          · rcases List.mem_append.mp hm with hm | hm
            · rw [heq]
              exact h2 m hm hT
            · rw [List.mem_singleton.mp hm, hnone] at hT
              cases hT
          · rw [heq]
            rcases List.mem_append.mp hm with hm | hm
            · obtain ⟨c, hc, hcm⟩ := h2 m hm hT
              exact ⟨c, List.mem_append_left _ hc, hcm⟩
            · exact ⟨(n, r), by simp, (List.mem_singleton.mp hm).symm⟩
  unfold flattenAllTrampolines reservations at h
  rw [visit_eq hv.toLinked] at h
  obtain ⟨h1, h2⟩ := hrun s.inorder ⟨B, [], []⟩ f [] h rfl (fun n hn => ⟨_, hbal, hn⟩) (by simp) (by simp)
  have hfind : ∀ n bytes, f.bytes n = some bytes → ∃ c ∈ f.code, c.1 = n ∧ c.2.1 = bytes := by
    intro n bytes hb
    obtain ⟨c, hc, rfl⟩ := Option.map_eq_some_iff.mp hb
    exact ⟨c, List.mem_of_find?_eq_some hc, by simpa using List.find?_some hc, rfl⟩
  refine ⟨fun n hn => ?_, fun n hn bytes hb => ?_⟩
  · rw [Bool.eq_iff_iff]
    constructor
    · intro hsome
      obtain ⟨bytes, hb⟩ := Option.isSome_iff_exists.mp hsome
      obtain ⟨c, hc, rfl, -⟩ := hfind n bytes hb
      exact (h1 c hc).1
    · intro hT
      obtain ⟨c, hc, rfl⟩ := h2 n (by simpa using hn) hT
      unfold Flattened.bytes
      rw [Option.isSome_map, List.find?_isSome]
      exact ⟨c, hc, by simp⟩
  · obtain ⟨c, hc, rfl, rfl⟩ := hfind n bytes hb
    exact (h1 c hc).2

/-! ### Runs -/

theorem flattened_code {B : Binary} (hB : Reachable B) {f : Flattened} (hf : flattenAllTrampolines B = .ok f) :
    CodeOf B.allocator f.bytes :=
  flattenAllTrampolines_code hf fun n _ _ => hB.entriesInside n

/-- **Loaded trampolines.** Whatever the options and the order of the messages, once the loader has made its calls every
byte that flattening left of a trampoline is in memory at its run-time address, and its page has the protections that
the trampoline asks for. Pages that several mappings share in the file, mappings that were shrunk, and entries of
either level do not show at each other's addresses. -/
theorem trampolines_loaded {B : Binary} (hB : Reachable B) {f : Flattened} (hf : flattenAllTrampolines B = .ok f)
    (attr : Attributes Trampoline) {options : MemOptions} {data : Nat → UInt8} {size : Nat}
    {refactors : List Refactor} {image : Image} (h : emitImage debug B attr f.bytes options data size refactors = .ok image)
    {file : Nat → UInt8} {elf_base : Int} (hload : Loadable B options size refactors image file elf_base)
    {n : Nat} (hn : Live B.allocator n) {T : Trampoline} (hT : (B.alloc n).T = some T)
    (hlow : INTPTR_MIN + mappingSize B.mode options ≤ (B.alloc n).lb) {i : Nat}
    (hi : (i : Int) < (B.alloc n).ub - (B.alloc n).lb) (memory : Int → Option MappedByte) :
    ∃ bytes, f.bytes n = some bytes ∧ ∃ b, bytes[i]? = some b ∧ ∃ prot : Protection, prot.Allows (attr.prot T) ∧
      loadMaps file elf_base image.maps memory (runtimeAddress elf_base ((B.alloc n).lb + i)) = some ⟨b, prot⟩ := by
  have hcode := flattened_code hB hf
  obtain ⟨ids, hbal, hmem⟩ := id hn
  have hHas := hcode ids hbal
  have hsome : (f.bytes n).isSome = true := by
    rw [hHas.isSome n hmem]
    exact Option.isSome_iff_exists.mpr ⟨T, hT⟩
  obtain ⟨bytes, hbytes⟩ := Option.isSome_iff_exists.mp hsome
  have hlength := hHas.length n hmem bytes hbytes
  simp only [Binary.alloc] at hi
  have hlt : i < bytes.length := by omega
  refine ⟨bytes, hbytes, _, List.getElem?_eq_getElem hlt, ?_⟩
  obtain ⟨prot, h1, h2⟩ := image_loaded attr hcode h hload hn hT hlow (x := (B.alloc n).lb + i) (b := bytes[i])
    ⟨by simp only [Binary.alloc]; omega, by simp only [Binary.alloc]; omega, bytes, hbytes, by
      rw [show ((B.alloc n).lb + i - (B.allocator.heap.alloc n).lb).toNat = i by
        simp only [Binary.alloc]
        omega]
      exact List.getElem?_eq_getElem hlt⟩ memory
  exact ⟨prot, h2, h1⟩

/-! ### A sample image -/

/-- Read and execute, in level 1. -/
def sampleAttributes : Attributes Trampoline := ⟨fun _ => ⟨true, false, true⟩, fun _ => false⟩

def sampleFlattened : Flattened := (flattenAllTrampolines sampleBinary).toOption.getD ⟨sampleBinary, [], []⟩

/-- The binary, in one page, and its image. -/
def sampleImage : Image :=
  (emitImage true sampleBinary sampleAttributes sampleFlattened.bytes MemOptions.default sampleBinary.bytes PAGE_SIZE
    []).toOption.getD ⟨⟨sampleBinary.bytes, 0, []⟩, [], []⟩

/-- What the sample comes to: the trampoline of the `xor` is the second reservation, and the image has one map. -/
theorem sample_values : (flattenAllTrampolines sampleBinary).toOption.isSome = true ∧
    (emitImage true sampleBinary sampleAttributes sampleFlattened.bytes MemOptions.default sampleBinary.bytes PAGE_SIZE
      []).toOption.isSome = true ∧
    sampleImage.maps = ([], [⟨4149, 1, 1, 0, true, false, true, false⟩]) ∧ reservations sampleBinary = [0, 1] ∧
    sampleBinary.mode = .ELF_EXE ∧ mappingSize sampleBinary.mode MemOptions.default < 2 ^ 16 * PAGE_SIZE ∧
    (sampleImage.file.size : Int) ≤ INTPTR_MAX ∧ (sampleBinary.alloc 1).T = some (.user sampleTemplate) ∧
    INTPTR_MIN + mappingSize sampleBinary.mode MemOptions.default ≤ (sampleBinary.alloc 1).lb ∧
    ((6 : Nat) : Int) < (sampleBinary.alloc 1).ub - (sampleBinary.alloc 1).lb := by
  decide +kernel

theorem sample_flattened : flattenAllTrampolines sampleBinary = .ok sampleFlattened := ok_getD sample_values.1

theorem sample_emitted : emitImage true sampleBinary sampleAttributes sampleFlattened.bytes MemOptions.default
    sampleBinary.bytes PAGE_SIZE [] = .ok sampleImage := by
  have h := sample_values.2.1
  unfold sampleImage
  cases hx : emitImage true sampleBinary sampleAttributes sampleFlattened.bytes MemOptions.default sampleBinary.bytes
      PAGE_SIZE [] with
  | error e =>
      rw [hx] at h
      cases h
  | ok image => rfl

theorem sample_live : Live sampleBinary.allocator 1 := by
  obtain ⟨ids, hbal⟩ := sample_reachable.invariant.wellFormed.allocates
  obtain ⟨s, hv, -, rfl⟩ := id hbal
  refine ⟨_, hbal, ?_⟩
  obtain ⟨-, -, -, hvisit, -⟩ := sample_values
  unfold reservations at hvisit
  rw [visit_eq hv.toLinked] at hvisit
  simp [hvisit]

theorem sample_loadable :
    Loadable sampleBinary MemOptions.default PAGE_SIZE [] sampleImage sampleImage.file.data 0 := by
  obtain ⟨-, -, hmaps, -, hmode, hmapping, hfits, -⟩ := sample_values
  exact
    { mode := Or.inl hmode
      mapping_size := hmapping
      pages := Nat.dvd_refl _
      fits := hfits
      file := fun _ _ _ => rfl
      refactors := by simp
      apart := by
        rw [hmaps]
        simp }

/-- The last byte of the trampoline of the `xor`. -/
theorem sample_loaded : ∃ bytes, sampleFlattened.bytes 1 = some bytes ∧ ∃ b, bytes[6]? = some b ∧
    ∃ prot : Protection, prot.Allows ⟨true, false, true⟩ ∧
      loadMaps sampleImage.file.data 0 sampleImage.maps (fun _ => none)
        (runtimeAddress 0 ((sampleBinary.alloc 1).lb + 6)) = some ⟨b, prot⟩ := by
  obtain ⟨-, -, -, -, -, -, -, hT, hlow, hi⟩ := sample_values
  exact trampolines_loaded sample_reachable sample_flattened sampleAttributes sample_emitted sample_loadable sample_live
    hT hlow (i := 6) hi fun _ => none

theorem sample_runs :
    ∃ B₀, parseBinary sampleFile .ELF_EXE defaultOptions none = .ok B₀ ∧ Runs B₀ sampleBinary := by
  have hvalues : sampleRun.toOption.isSome = true ∧ sampleMessages.toOption.map (·.count) = some 4 := by decide +kernel
  have h : sampleRun = .ok sampleBinary := ok_getD hvalues.1
  obtain ⟨B₁, h₁, h⟩ := bind_ok.mp h
  obtain ⟨B₂, h₂, h⟩ := bind_ok.mp h
  obtain ⟨r, hr, h⟩ := bind_ok.mp h
  have hc₁ : B₁.count = 4 := by
    have hcount := hvalues.2
    rw [h₁] at hcount
    exact Option.some.inj hcount
  obtain ⟨B₀, h₀, h₁⟩ := bind_ok.mp h₁
  have hi := parseBinary_invariant h₀
  have hruns := messages_runs hi h₁
  have hs₂ : Step B₁ B₂ := .dequeue 2 (by omega) h₂
  have hi₁ := hruns.invariant hi
  have hc₂ := (hs₂.ok hi₁.wellFormed).count
  have hs₃ : Step B₂ r.1 := .patch 2 sampleTemplate (by omega) hr
  have hc₃ := (hs₃.ok (hs₂.invariant hi₁).wellFormed).count
  exact ⟨B₀, h₀, ((hruns.tail hs₂).tail hs₃).tail (.dequeue 3 (by omega) h)⟩

end E9Patch
