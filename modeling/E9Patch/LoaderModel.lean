import E9Patch.AllocModel
import E9Patch.Bytes

/-!
The map entries of the loader: `emitLoaderMap` of `e9elf.cpp` squeezes a mapping into an `e9_map_s`, whose
fields count pages, and `e9load_maps` of `e9loader_elf.cpp` makes a call of `mmap` from it. A size of
2^16 pages or more passes the check of the former and is cut off.
-/

namespace E9Patch
open Bytes

def BASE_ADDRESS (p : Int) : Int := if IS_ABSOLUTE p then p - 0x6000000000000000 else p

/-- A map entry. `addr` has 32 bits and a sign, `offset` 32, `size` 20 and `type` 2. -/
structure e9_map_s where
  addr : Int
  offset : Nat
  size : Nat
  type : Nat
  r : Bool
  w : Bool
  x : Bool
  abs : Bool
  deriving DecidableEq, Repr

inductive LoaderError where
  | address (addr : Int)
  | size (len : Nat)
  | offset (offset : Nat)
  deriving DecidableEq, Repr

/-- Emit a mapping. `ub` is the upper bound so far of the relative addresses, if the caller asks for it. -/
def emitLoaderMap (addr : Int) (len : Nat) (offset : Int) (r w x : Bool) (type : Nat) (ub : Option Int) :
    Except LoaderError (e9_map_s × Option Int) :=
  let abs := IS_ABSOLUTE addr
  let ub := if abs then ub else ub.map (max · addr)
  let addr := (BASE_ADDRESS addr).tdiv PAGE_SIZE
  let len := len / PAGE_SIZE
  -- the divisor is unsigned, so that the offset is taken to be
  let offset := toU64 offset / PAGE_SIZE
  if addr < -2 ^ 31 ∨ addr > 2 ^ 31 - 1 then .error (.address addr)
  else if len ≥ 2 ^ 21 then .error (.size len)
  else if offset > 2 ^ 32 - 1 then .error (.offset offset)
  else .ok
    ({ addr := signed32 addr, offset := offset % 2 ^ 32, size := len % 2 ^ 16 % 2 ^ 20, type := type % 2 ^ 2
       r := r, w := w, x := x, abs := abs }, ub)

/-- The arguments of a call of `mmap`. -/
structure MmapCall where
  addr : Int
  len : Nat
  r : Bool
  w : Bool
  x : Bool
  offset : Nat
  deriving DecidableEq, Repr

/-- What `e9load_maps` does for one entry. -/
def e9load_map (elf_base : Int) (m : e9_map_s) : MmapCall :=
  { addr := (if m.abs then 0 else elf_base) + m.addr * PAGE_SIZE, len := m.size * PAGE_SIZE
    r := m.r, w := m.w, x := m.x, offset := m.offset * PAGE_SIZE }

/-- Load a set of maps. -/
def e9load_maps (elf_base : Int) (maps : List e9_map_s) : List MmapCall := maps.map (e9load_map elf_base)

/-! ### Round trip -/

/-- The address with what is past the start of its page cut off. -/
def pageOf (x : Int) : Int := x.tdiv PAGE_SIZE * PAGE_SIZE

theorem pageOf_aligned {x : Int} (h : (PAGE_SIZE : Int) ∣ x) : pageOf x = x := Int.tdiv_mul_cancel h

/-- The call that maps the pages as they were asked for. -/
def requestedCall (elf_base addr : Int) (len : Nat) (offset : Int) (r w x : Bool) : MmapCall :=
  { addr := (if IS_ABSOLUTE addr then 0 else elf_base) + pageOf (BASE_ADDRESS addr)
    len := (pageOf len).toNat, r := r, w := w, x := x, offset := (pageOf offset).toNat }

/-- What the entry is when the checks pass: only the size can be less than what was asked for. -/
theorem emitLoaderMap_ok {addr offset : Int} {len type : Nat} {r w x : Bool} {ub ub' : Option Int}
    {m : e9_map_s} (h : emitLoaderMap addr len offset r w x type ub = .ok (m, ub')) :
    m.addr = (BASE_ADDRESS addr).tdiv PAGE_SIZE ∧ m.offset = toU64 offset / PAGE_SIZE ∧
      m.offset < 2 ^ 32 ∧ m.size = len / PAGE_SIZE % 2 ^ 16 ∧ m.r = r ∧ m.w = w ∧ m.x = x ∧
      m.abs = decide (IS_ABSOLUTE addr) := by
  unfold emitLoaderMap at h
  simp only at h
  split at h
  · cases h
  rename_i haddr
  split at h
  · cases h
  split at h
  · cases h
  rename_i hoffset
  obtain rfl : _ = m := congrArg Prod.fst (Except.ok.inj h)
  refine ⟨signed32_eq (by omega) (by omega), Nat.mod_eq_of_lt (by omega), Nat.mod_lt _ (by decide), ?_, rfl,
    rfl, rfl, rfl⟩
  exact Nat.mod_eq_of_lt (Nat.lt_of_lt_of_le (Nat.mod_lt _ (by decide)) (by decide))

/-- An offset in the file, of 64 bits with a sign, is not negative where its page number passes. -/
theorem toU64_offset {offset : Int} (hoffset : INTPTR_MIN ≤ offset ∧ offset ≤ INTPTR_MAX)
    (h : toU64 offset / PAGE_SIZE < 2 ^ 32) : 0 ≤ offset ∧ toU64 offset = offset.toNat := by
  simp only [INTPTR_MIN, INTPTR_MAX] at hoffset
  simp only [toU64, PAGE_SIZE] at h ⊢
  omega

/-- **Map entries.** An entry that is emitted without an error is loaded as it was asked for, down to
whole pages, exactly when there are less than 2^16 pages. -/
theorem loader_map_round_trip {addr offset : Int} {len type : Nat} {r w x : Bool} {ub ub' : Option Int}
    {m : e9_map_s} (hoffset : INTPTR_MIN ≤ offset ∧ offset ≤ INTPTR_MAX)
    (h : emitLoaderMap addr len offset r w x type ub = .ok (m, ub')) (elf_base : Int) :
    (e9load_map elf_base m = requestedCall elf_base addr len offset r w x ↔ len < 2 ^ 16 * PAGE_SIZE) ∧
      ∀ n : Int, (PAGE_SIZE : Int) ∣ n → pageOf n = n := by
  obtain ⟨haddr, hoff, hlt, hsize, hr, hw, hx, habs⟩ := emitLoaderMap_ok h
  rw [hoff] at hlt
  obtain ⟨hpos, hu64⟩ := toU64_offset hoffset hlt
  have hoff' : m.offset * PAGE_SIZE = (pageOf offset).toNat := by
    obtain ⟨n, rfl⟩ := Int.eq_ofNat_of_zero_le hpos
    rw [hoff, hu64]
    rfl
  have hlen : m.size * PAGE_SIZE = (pageOf len).toNat ↔ len < 2 ^ 16 * PAGE_SIZE := by
    have hpage : (pageOf len).toNat = len / PAGE_SIZE * PAGE_SIZE := rfl
    rw [hpage, hsize]
    simp only [PAGE_SIZE]
    omega
  refine ⟨?_, fun n hn => pageOf_aligned hn⟩
  rw [← hlen]
  unfold e9load_map requestedCall
  rw [haddr, hoff', hr, hw, hx, habs]
  simp only [decide_eq_true_eq, MmapCall.mk.injEq, and_true]
  exact ⟨fun h => h.2, fun h => ⟨rfl, h⟩⟩

/-- A mapping of four pages. -/
theorem four_pages_round_trip : (e9load_map 0x555555554000 ⟨-0x10, 2, 4, 0, true, false, true, false⟩ =
      requestedCall 0x555555554000 (-0x10000) 0x4000 0x2000 true false true ↔ 0x4000 < 2 ^ 16 * PAGE_SIZE) ∧
    ∀ n : Int, (PAGE_SIZE : Int) ∣ n → pageOf n = n :=
  loader_map_round_trip (by decide)
    (show emitLoaderMap (-0x10000) 0x4000 0x2000 true false true 0 none = .ok (_, none) by decide) 0x555555554000

/-- 256 megabytes, which are loaded as nothing. -/
theorem size_is_cut : ¬∀ m, emitLoaderMap 0x400000 0x10000000 0x1000 true false true 2 none = .ok (m, none) →
    e9load_map 0 m = requestedCall 0 0x400000 0x10000000 0x1000 true false true := by
  intro h
  have hm := h ⟨0x400, 1, 0, 2, true, false, true, false⟩ (by decide)
  exact absurd (congrArg MmapCall.len hm) (by decide)

end E9Patch
