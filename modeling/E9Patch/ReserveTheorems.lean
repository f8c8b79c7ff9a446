import E9Patch.PatchTheorems

/-!
Reserved memory. Both ways of reserving round outwards to whole pages, and nothing that a run does later
frees what was reserved, so that no page ever has a byte of a reservation and a byte of a trampoline. A
run is one without an overflow in the allocator; behind an overflow an accepted reservation may be
elsewhere.
-/

namespace E9Patch
open Bytes Binary Fallible PtrTree

/-! ### Allocations are kept -/

theorem KeepsAllocations.of_eq {t t' : Tree Trampoline Nat} (ht : ∃ ids, Balanced t ids) (h : t' = t) :
    KeepsAllocations t t' := by
  obtain ⟨ids, hb⟩ := ht
  rw [h]
  exact .refl hb

theorem reserve_keeps {t t' : Tree Trampoline Nat} {lb ub : Int} {n : Nat} (ht : ∃ ids, Balanced t ids)
    (h : t.reserve checked lb ub = .ok (some (t', n))) : KeepsAllocations t t' := by
  obtain ⟨ids, hb⟩ := ht
  obtain ⟨-, -, entry, ha⟩ := reserve_ok hb h
  exact ha.keeps hb

theorem reserveTrampoline_keeps {B B' : Binary} {a : Int × Option Template} (hB : B.Allocates)
    (h : reserveTrampoline B a = .ok B') : KeepsAllocations B.allocator B'.allocator := by
  unfold reserveTrampoline at h
  split at h
  · cases h
    exact .of_eq hB rfl
  · obtain ⟨o, ho, h⟩ := bind_ok.mp h
    cases o with
    | none => cases h
    | some o =>
        cases h
        exact (allocate_spec hB ho).1.keeps

theorem parseReserve_keeps {B B' : Binary} {absolute : List Bool} {address : List Int} {bytes : List Template}
    {length : List Int} (hB : B.Allocates) (h : parseReserve B absolute address bytes length = .ok B') :
    KeepsAllocations B.allocator B'.allocator := by
  unfold parseReserve at h
  obtain ⟨addr, -, h⟩ := bind_ok.mp h
  obtain ⟨_, -, h⟩ := bind_ok.mp h
  obtain ⟨_, -, h⟩ := bind_ok.mp h
  obtain ⟨_, -, h⟩ := bind_ok.mp h
  split at h
  · obtain ⟨size, -, h⟩ := bind_ok.mp h
    refine foldlM_rel (R := fun C C' => C.Allocates → KeepsAllocations C.allocator C'.allocator)
      (fun C hC => .of_eq hC rfl) (fun h1 h2 hC => ?_) (fun a _ C C' hf hC => reserveTrampoline_keeps hC hf) h hB
    have hkeep := h1 hC
    exact hkeep.trans (h2 hkeep.balanced)
  · split at h
    · cases h
      exact .of_eq hB rfl
    · obtain ⟨t, n, ht, rfl⟩ := reserve_inv (reserveLength_ok h)
      exact reserve_keeps hB ht
  · cases h
    exact .of_eq hB rfl

/-- No step frees what was allocated before it. -/
theorem Step.keeps {B B' : Binary} (hw : WellFormed B) (h : Step B B') :
    KeepsAllocations B.allocator B'.allocator := by
  have hsame : B'.allocator = B.allocator → KeepsAllocations B.allocator B'.allocator := .of_eq hw.allocates
  cases h with
  | instruction address length offset h =>
      obtain ⟨off, addr, len, -, h⟩ := parseInstruction_ok h
      apply hsame
      rw [(claim_spec h).1]
      rfl
  | reserve absolute address bytes length h => exact parseReserve_keeps hw.allocates h
  | trampoline name template h =>
      apply hsame
      rw [parseTrampoline_only h]
  | mark I metadata T => exact hsame rfl
  | queue I T hI h =>
      obtain ⟨C, hC, h⟩ := bind_ok.mp h
      cases h
      apply hsame
      rw [(restate_spec queueByte_spec (fun b => .of_open (by decide) (by decide) (by decide)) hC).1]
  | postpone options analysis => exact hsame rfl
  | options options analysis =>
      apply hsame
      rw [(applyOptions_same B options analysis).eq]
  | entrySet =>
      obtain ⟨Es, hEs⟩ := buildEntrySet_frame B
      apply hsame
      rw [hEs]
  | cursor cursor => exact hsame rfl
  | pop Q hQ => exact hsame rfl
  | dequeue I hI h =>
      obtain ⟨C, hC, h⟩ := bind_ok.mp h
      cases h
      apply hsame
      rw [(restate_spec unqueueByte_spec (fun b => .of_open (by decide) (by decide) (by decide)) hC).1]
      rfl
  | patch I T hI h =>
      rcases patch_spec hw hI h with ⟨-, hu⟩ | ⟨C, P, Ps, -, hs, rfl⟩
      · exact hu.progress.keeps
      · obtain ⟨Es, Traps, hC⟩ := commit_frame C (P :: Ps)
        rw [hC]
        exact hs.progress.keeps
  | tactic r h => exact (h.progress hw).keeps
  | free K hK hp h => exact (freeInstr_spec hw hK (hw.not_evicted hK hp) h).1.keeps
  | flag J v => exact hsame rfl
  | place I J i T hJ hA h =>
      obtain ⟨ha, hin⟩ := allocatePunnedJump_spec hw.allocates hA
      exact (applyJump_placed ha hin (user_ne_evictee T) h).1.progress.keeps

theorem Runs.keeps {B B' : Binary} (hi : Invariant B) (h : Runs B B') :
    KeepsAllocations B.allocator B'.allocator := by
  induction h with
  | refl => exact .of_eq hi.wellFormed.allocates rfl
  | tail hr hs ih => exact ih.trans (hs.keeps (Runs.invariant hi hr).wellFormed)

/-! ### What is reserved -/

/-- The address is in an allocation that is not for an instruction: a reservation, or one of the three
trampolines of a reservation with bytes. -/
def Reserved (t : Tree Trampoline Nat) (x : Int) : Prop :=
  ∃ n, Live t n ∧ (t.heap.alloc n).I = none ∧ (t.heap.alloc n).lb ≤ x ∧ x < (t.heap.alloc n).ub

/-- The address is in the trampoline of an instruction. -/
def Occupied (t : Tree Trampoline Nat) (x : Int) : Prop :=
  ∃ n, Live t n ∧ (t.heap.alloc n).I ≠ none ∧ (t.heap.alloc n).lb ≤ x ∧ x < (t.heap.alloc n).ub

theorem Reserved.keeps {t t' : Tree Trampoline Nat} {x : Int} (h : Reserved t x) (hk : KeepsAllocations t t') :
    Reserved t' x := by
  obtain ⟨n, hl, hI, hlb, hub⟩ := h
  obtain ⟨hl', ha⟩ := hk.live hl
  refine ⟨n, hl', ?_⟩
  rw [ha]
  exact ⟨hI, hlb, hub⟩

/-- Allocations are disjoint. -/
theorem Live.disjoint {t : Tree Trampoline Nat} {m n : Nat} {x : Int} (hm : Live t m) (hn : Live t n)
    (hmx : (t.heap.alloc m).lb ≤ x ∧ x < (t.heap.alloc m).ub)
    (hnx : (t.heap.alloc n).lb ≤ x ∧ x < (t.heap.alloc n).ub) : m = n := by
  obtain ⟨ids, hb, hm⟩ := hm
  obtain ⟨ids', hb', hn⟩ := hn
  obtain rfl := balanced_unique hb hb'
  obtain ⟨s, hv, -, rfl⟩ := hb
  exact hv.ordered.1.unique hm hn hmx hnx

theorem Reserved.not_occupied {t : Tree Trampoline Nat} {x : Int} (h : Reserved t x) : ¬Occupied t x := by
  rintro ⟨m, hm, hI, hmx⟩
  obtain ⟨n, hn, hnone, hnx⟩ := h
  obtain rfl := hm.disjoint hn hmx hnx
  exact hI hnone

/-! ### The size of bytes -/

/-- Without an instruction, what an entry adds to the size is the same in every state. -/
theorem entrySize_none (B B' : Binary) (rec rec' : Trampoline → Option Nat → Bool → Except Fault Int)
    (last isLast : Bool) (entry : Entry) :
    entrySize B rec last entry isLast none = entrySize B' rec' last entry isLast none := by
  cases entry <;> rfl

theorem entrySize_none_ok {B : Binary} {rec : Trampoline → Option Nat → Bool → Except Fault Int}
    {last isLast : Bool} {entry : Entry} {r : Int} {I : Option Nat}
    (h : entrySize B rec last entry isLast none = .ok (some (r, I))) : I = none := by
  cases entry <;> cases h <;> rfl

theorem entriesSize_none (B B' : Binary) (rec rec' : Trampoline → Option Nat → Bool → Except Fault Int)
    (last : Bool) (entries : List Entry) (size : Int) :
    entriesSize B rec last entries none size = entriesSize B' rec' last entries none size := by
  induction entries generalizing size with
  | nil => rfl
  | cons entry entries ih =>
      rw [entriesSize, entriesSize, entrySize_none B B' rec rec']
      cases h : entrySize B' rec' last entry entries.isEmpty none with
      | error e => rfl
      | ok o =>
          cases o with
          | none => rfl
          | some p =>
              obtain ⟨r, I⟩ := p
              obtain rfl : I = none := entrySize_none_ok h
              exact ih (size + r)

theorem getTrampolineSize_none (B B' : Binary) (T : Trampoline) :
    getTrampolineSize B T none = getTrampolineSize B' T none :=
  entriesSize_none B B' _ _ true T.entries 0

/-! ### Reserve messages -/

/-- The addresses that a reserve message asks for: the first one, and how many. -/
def reservation (B : Binary) (absolute : List Bool) (address : List Int) (bytes : List Template)
    (length : List Int) : Option (Int × Int) :=
  match address.getLast? with
  | none => none
  | some addr =>
    let addr := if absolute.getLast?.getD false ∧ B.pic then ABSOLUTE_ADDRESS addr else addr
    match bytes.getLast?, length.getLast? with
    | some T, _ => (getTrampolineSize B (.user T) none).toOption.map fun size => (addr, size)
    | none, some len => some (addr, (toU64 len : Int))
    | none, none => none

/-- Of a range that is allocated for no instruction, every address is reserved. -/
theorem reserveTrampoline_range {B B' : Binary} {addr size : Int} {T : Template} (hB : B.Allocates)
    (hsize : getTrampolineSize B (.user T) none = .ok size)
    (h : reserveTrampoline B (addr, some T) = .ok B') {x : Int} (h1 : addr ≤ x) (h2 : x < addr + size) :
    Reserved B'.allocator x := by
  obtain ⟨ids, hb⟩ := hB
  obtain ⟨o, ho, h⟩ := bind_ok.mp h
  cases o with
  | none => cases h
  | some o =>
      cases h
      obtain ⟨presize, tmpsize, t, hpre, htmp, ht, hB'⟩ := allocate_inv ho
      cases hpre
      rw [hsize] at htmp
      cases htmp
      obtain ⟨LB, h3, h4, h5, h6⟩ := allocate_ok hb ht
      obtain ⟨hlive, hrec⟩ := h6.live
      rw [hB']
      refine ⟨o.2, hlive, ?_⟩
      rw [hrec]
      refine ⟨rfl, ?_, ?_⟩
      · show LB ≤ x
        omega
      · show x < LB + ((0 : Int).toNat + size.toNat : Nat)
        omega

theorem makePadding_range {B B' : Binary} {addr : Int} {id len : Nat} (hB : B.Allocates) (hlen : len ≤ PAGE_SIZE)
    (h : reserveTrampoline B (addr, makePadding id len) = .ok B') {x : Int} (h1 : addr ≤ x)
    (h2 : x < addr + len) : Reserved B'.allocator x := by
  have hsize : ∀ T, getTrampolineSize B (.user ⟨T, [.ZEROES len]⟩) none = .ok (len : Int) := by
    intro T
    show Except.ok (signed32 (0 + len)) = .ok (len : Int)
    simp only [PAGE_SIZE] at hlen
    rw [signed32_eq (by omega) (by omega), Int.zero_add]
  unfold makePadding at h
  rw [if_neg (by omega : ¬len = 0)] at h
  exact reserveTrampoline_range hB (hsize _) h h1 h2

theorem param_ok {α : Type} {values : List α} {missing : String} {v : α} :
    param values missing = .ok v ↔ values.getLast? = some v := by
  unfold param
  cases values.getLast? <;> simp

/-- Every page with an address of the reservation is reserved as a whole. -/
theorem parseReserve_pages {B B' : Binary} {absolute : List Bool} {address : List Int} {bytes : List Template}
    {length : List Int} {addr size : Int} (hB : B.Allocates)
    (h : parseReserve B absolute address bytes length = .ok B')
    (hres : reservation B absolute address bytes length = some (addr, size)) {x y : Int} (hlb : addr ≤ x)
    (hub : x < addr + size) (hpage : y / PAGE_SIZE = x / PAGE_SIZE) : Reserved B'.allocator y := by
  unfold parseReserve at h
  obtain ⟨a, ha, h⟩ := bind_ok.mp h
  obtain ⟨_, -, h⟩ := bind_ok.mp h
  obtain ⟨_, -, h⟩ := bind_ok.mp h
  obtain ⟨_, -, h⟩ := bind_ok.mp h
  unfold reservation at hres
  rw [param_ok.mp ha] at hres
  simp only at hres
  generalize (if absolute.getLast?.getD false ∧ B.pic then ABSOLUTE_ADDRESS a else a) = a' at h hres
  simp only [PAGE_SIZE] at hpage
  cases hbytes : bytes.getLast? with
  | some T =>
      rw [hbytes] at h hres
      obtain ⟨n, hn, h⟩ := bind_ok.mp h
      simp only [hn, Except.toOption, Option.map_some, Option.some.injEq, Prod.mk.injEq] at hres
      obtain ⟨rfl, rfl⟩ := hres
      rw [List.foldlM_cons, bind_ok] at h
      obtain ⟨C, hC, h⟩ := h
      rw [List.foldlM_cons, bind_ok] at h
      obtain ⟨D, hD, h⟩ := h
      rw [List.foldlM_cons, bind_ok] at h
      obtain ⟨E, hE, h⟩ := h
      cases h
      have hBC := reserveTrampoline_keeps hB hC
      have hCD := reserveTrampoline_keeps hBC.balanced hD
      have hDE := reserveTrampoline_keeps hCD.balanced hE
      rw [getTrampolineSize_none B C] at hn
      -- the page before the bytes, the bytes, and what is left of the last page
      rcases Int.lt_or_le y a' with hlt | hge
      · refine ((makePadding_range hB ?_ hC ?_ ?_).keeps hCD).keeps hDE <;> simp only [PAGE_SIZE] <;> omega
      · rcases Int.lt_or_le y (a' + n) with hlt' | hge'
        · exact (reserveTrampoline_range hBC.balanced hn hD hge hlt').keeps hDE
        · refine makePadding_range hCD.balanced ?_ hE hge' ?_ <;> simp only [PAGE_SIZE] <;> omega
  | none =>
      rw [hbytes] at h hres
      cases hlength : length.getLast? with
      | none =>
          rw [hlength] at hres
          cases hres
      | some len =>
          rw [hlength] at h hres
          cases hres
          simp only at h
          split at h
          · rename_i hzero
            rw [hzero] at hub
            simp only [toU64] at hub
            omega
          · obtain ⟨t, n, ht, rfl⟩ := reserve_inv (reserveLength_ok h)
            obtain ⟨ids, hb⟩ := hB
            obtain ⟨hmin, hle, entry, hadded⟩ := reserve_ok hb ht
            obtain ⟨hlive, hrec⟩ := hadded.live
            refine ⟨n, hlive, ?_⟩
            rw [hrec]
            -- the end of the range is not wrapped round
            have hend : signed64 (addr + len) = addr + toU64 len := by
              simp only [signed64, toU64, RELATIVE_ADDRESS_MIN] at hmin hle hub ⊢
              omega
            rw [hend]
            refine ⟨rfl, ?_, ?_⟩
            · show addr - addr % (4096 : Nat) ≤ y
              omega
            · show y < addr + toU64 len + (if (addr + toU64 len) % (4096 : Nat) = 0 then 0 else _)
              by_cases hzero : (addr + toU64 len) % (4096 : Nat) = 0
              · rw [if_pos hzero]
                omega
              · rw [if_neg hzero]
                show y < addr + toU64 len + ((4096 : Nat) - (addr + toU64 len) % (4096 : Nat))
                omega

/-- **Reserved memory is apart from trampolines.** Once a reserve message is accepted, and whatever comes
before and after it, every page with an address of its range is reserved as a whole, and has no byte of an
instruction's trampoline. -/
theorem reserved_apart {B B₁ B₂ : Binary} {absolute : List Bool} {address : List Int} {bytes : List Template}
    {length : List Int} {addr size : Int} (hB : Reachable B)
    (h : parseReserve B absolute address bytes length = .ok B₁)
    (hres : reservation B absolute address bytes length = some (addr, size)) (hr : Runs B₁ B₂) {x y : Int}
    (hlb : addr ≤ x) (hub : x < addr + size) (hpage : y / PAGE_SIZE = x / PAGE_SIZE) :
    Reserved B₂.allocator y ∧ ¬Occupied B₂.allocator y := by
  have hi := hB.invariant
  have hstep : Step B B₁ := .reserve absolute address bytes length h
  have hreserved := parseReserve_pages hi.wellFormed.allocates h hres hlb hub hpage
  have hlater := hreserved.keeps (hr.keeps (hstep.invariant hi))
  exact ⟨hlater, hlater.not_occupied⟩

/-- A hundred bytes at a negative address take up the page that they are in. -/
theorem sample_apart : ∃ B₁, parseReserve sampleBinary [] [-5000] [] [100] = .ok B₁ ∧
    Reserved B₁.allocator (-8192) ∧ ¬Occupied B₁.allocator (-8192) := by
  have hok : (parseReserve sampleBinary [] [-5000] [] [100]).toOption.isSome = true := by decide +kernel
  refine ⟨_, ok_getD (d := sampleBinary) hok, ?_⟩
  exact reserved_apart sample_reachable (ok_getD hok)
    (by decide : reservation sampleBinary [] [-5000] [] [100] = some (-5000, 100)) .refl
    (x := -5000) (by decide) (by decide) (by decide)

/-- The sample file before any message but the first. -/
def freshRun : Except Fault Binary := parseBinary sampleFile .ELF_EXE defaultOptions none

def freshBinary : Binary := freshRun.toOption.getD (newBinary sampleFile .ELF_EXE defaultOptions)

/-- Two absolute reservations, and a relative one at the other end of the address space. -/
def farRanges : List (Int × Int) :=
  [(0x6000000000020000, 0x1000), (0x6000000000400000, 0x1000), (-0x1FFFFFFFFFFF0000, 0x2000)]

def farRangesRun : Except Fault Binary := farRanges.foldlM (fun B r => reserveLength wrapped B r.1 r.2) freshBinary

/-- As compiled, the last reservation is accepted, and no allocation has its first address. -/
theorem farRanges_lost :
    ¬∀ (ranges : List (Int × Int)) (B B' : Binary), Reachable B →
      ranges.foldlM (fun B r => reserveLength wrapped B r.1 r.2) B = .ok B' →
        ∀ r ∈ ranges, 0 < r.2 → ∃ n < B'.allocator.heap.fresh,
          (B'.allocator.heap.alloc n).lb ≤ r.1 ∧ r.1 < (B'.allocator.heap.alloc n).ub := by
  intro h
  have hfresh : freshRun = .ok freshBinary := ok_getD (by decide +kernel)
  have hrun : farRangesRun = .ok (farRangesRun.toOption.getD freshBinary) := ok_getD (by decide +kernel)
  have hlost : ∀ n < (farRangesRun.toOption.getD freshBinary).allocator.heap.fresh,
      -0x1FFFFFFFFFFF0000 < ((farRangesRun.toOption.getD freshBinary).allocator.heap.alloc n).lb := by decide +kernel
  obtain ⟨n, hn, hlb, -⟩ := h farRanges freshBinary _ ⟨_, _, _, _, _, hfresh, .refl⟩ hrun (-0x1FFFFFFFFFFF0000, 0x2000)
    (List.mem_of_getElem? (i := 2) rfl) (by decide)
  exact absurd hlb (Int.not_le.mpr (hlost n hn))

end E9Patch
