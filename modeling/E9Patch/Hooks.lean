import E9Patch.QueueRun
import E9Patch.PatchTheorems
import E9Patch.LoaderModel

/-!
The functions that a reserve message names for the loader to call: at initialisation, at finalisation, and
instead of `mmap`. In the patching back end an absolute address of a position-independent binary is moved by
a constant, in the configuration for the loader it has bit 62 set.
-/

namespace E9Patch
open Binary Fallible

/-! ### Reserve messages with hooks -/

/-- The parameters of a reserve message. -/
structure ReserveMessage where
  absolute : List Bool
  address : List Int
  bytes : List Template
  length : List Int
  init : List Int
  fini : List Int
  mmap : List Int

/-- The hooks that a binary has so far; `mmap` is `INTPTR_MIN` if there is none. -/
structure Hooks where
  inits : List Int
  finis : List Int
  mmap : Int

def Hooks.none : Hooks := ⟨[], [], INTPTR_MIN⟩

def convertAddress (absolute pic : Bool) (p : Int) : Int := if absolute ∧ pic then ABSOLUTE_ADDRESS p else p

/-- `bytes->entries[0].length`. -/
def firstLength (T : Template) : Nat :=
  match T.entries with
  | .BYTES bytes :: _ => bytes.length % 2 ^ 32
  | .ZEROES length :: _ => length
  | _ => 0

/-- The hook must be in the bytes of the message. -/
def checkHook (address : Int) (bytes : List Template) (hook : Int) (text : String) : Except Fault Unit :=
  match bytes.getLast? with
  | none => .error (.error text)
  | some T => failIf (hook < address ∨ hook ≥ address + firstLength T) text

/-- `init` and `fini`. -/
def parseHook (absolute pic : Bool) (address : Int) (bytes : List Template) (hooks : List Int)
    (text : String) : Option Int → Except Fault (List Int)
  | none => .ok hooks
  | some hook => do
    checkHook address bytes (convertAddress absolute pic hook) text
    .ok (hooks ++ [convertAddress absolute pic hook])

def parseMmap (absolute pic : Bool) (address : Int) (bytes : List Template) (mmap : Int) :
    Option Int → Except Fault Int
  | none => .ok mmap
  | some hook => do
    checkHook address bytes (convertAddress absolute pic hook)
      "failed to parse \"reserve\" message (id=%u); \"mmap\" parameter value (%s%s0x%lx) is out-of-bounds"
    failIf (mmap ≠ INTPTR_MIN)
      "failed to parse \"reserve\" message (id=%u); a mmap function was previously defined"
    .ok (convertAddress absolute pic hook)

/-- Parse a reserve message with its hooks. -/
def parseReserveHooks (s : Binary × Hooks) (m : ReserveMessage) : Except Fault (Binary × Hooks) := do
  let address ← param m.address
    "failed to parse \"reserve\" message (id=%u); missing \"address\" parameter"
  failIf (m.bytes = [] ∧ m.length = [])
    "failed to parse \"reserve\" message (id=%u); missing \"bytes\" parameter or \"length\" parameter"
  failIf (m.bytes ≠ [] ∧ m.length ≠ [])
    "failed to parse \"reserve\" message (id=%u); only one of the \"bytes\" or \"length\" parameters can be specified"
  let absolute := m.absolute.getLast?.getD false
  let address := convertAddress absolute s.1.pic address
  let inits ← parseHook absolute s.1.pic address m.bytes s.2.inits
    "failed to parse \"reserve\" message (id=%u); \"init\" parameter value (%s%s0x%lx) is out-of-bounds"
    m.init.getLast?
  let finis ← parseHook absolute s.1.pic address m.bytes s.2.finis
    "failed to parse \"reserve\" message (id=%u); \"fini\" parameter value (%s%s0x%lx) is out-of-bounds"
    m.fini.getLast?
  let mmap ← parseMmap absolute s.1.pic address m.bytes s.2.mmap m.mmap.getLast?
  failIf (dup m.init ∨ dup m.fini ∨ dup m.mmap)
    "failed to parse \"reserve\" message (id=%u); duplicate parameters detected"
  let B ← parseReserve s.1 m.absolute m.address m.bytes m.length
  .ok (B, ⟨inits, finis, mmap⟩)

/-- A message of a stream: a reserve message, or one that has no hooks. -/
inductive HookMessage where
  | reserve (m : ReserveMessage)
  | other (m : Message)

def parseHookMessage (s : Binary × Hooks) : HookMessage → Except Fault (Binary × Hooks)
  | .reserve m => parseReserveHooks s m
  | .other m => (parseMessage s.1 m).map fun B => (B, s.2)

/-! ### The configuration -/

def E9_ABS_ADDR : BitVec 64 := 0x4000000000000000

/-- What the loader reads of its configuration. -/
structure HookConfig where
  inits : List (BitVec 64)
  finis : List (BitVec 64)
  mmap : BitVec 64

/-- The loops of `emitElf` over the inits and the finis. -/
def emitHook (p : Int) : BitVec 64 :=
  BitVec.ofInt 64 (BASE_ADDRESS p) ||| (if IS_ABSOLUTE p then E9_ABS_ADDR else 0)

/-- The test for an absolute address sees the converted one. -/
def emitMmap (mmap : Int) : BitVec 64 :=
  if mmap ≠ INTPTR_MIN then
    let converted := BASE_ADDRESS mmap
    BitVec.ofInt 64 converted ||| (if IS_ABSOLUTE converted then E9_ABS_ADDR else 0)
  else 0

def emitHooks (H : Hooks) : HookConfig := ⟨H.inits.map emitHook, H.finis.map emitHook, emitMmap H.mmap⟩

/-! ### The loader -/

/-- Get an address. -/
def e9addr (addr elf_base : BitVec 64) : BitVec 64 :=
  if addr &&& E9_ABS_ADDR ≠ 0 then addr &&& ~~~E9_ABS_ADDR else elf_base + addr

/-- The functions that are called at initialisation and at finalisation, in their order. -/
def calledInits (config : HookConfig) (elf_base : BitVec 64) : List (BitVec 64) :=
  config.inits.map fun addr => e9addr addr elf_base

def calledFinis (config : HookConfig) (elf_base : BitVec 64) : List (BitVec 64) :=
  config.finis.map fun addr => e9addr addr elf_base

/-- The function that maps trampolines, unless it is the default one. -/
def calledMmap (config : HookConfig) (elf_base : BitVec 64) : Option (BitVec 64) :=
  if config.mmap ≠ 0 then some (e9addr config.mmap elf_base) else none

/-! ### What the messages ask for -/

/-- A hook as its message names it. -/
structure Hook where
  absolute : Bool
  address : Int

/-- The address to call. -/
def Hook.target (hook : Hook) (elf_base : BitVec 64) : BitVec 64 :=
  if hook.absolute then BitVec.ofInt 64 hook.address else elf_base + BitVec.ofInt 64 hook.address

/-- The hooks of one kind, in the order of their messages. -/
def hooksOf (kind : ReserveMessage → List Int) (ms : List HookMessage) : List Hook :=
  ms.filterMap fun
    | .reserve m => (kind m).getLast?.map fun hook => ⟨m.absolute.getLast?.getD false, hook⟩
    | .other _ => none

/-- Addresses are `intptr_t`. -/
def Hook.Valid (hook : Hook) : Prop := INTPTR_MIN ≤ hook.address ∧ hook.address ≤ INTPTR_MAX

/-- An init or fini that is called where it should: its address is not negative, and below the tag or in the
range of absolute addresses. -/
def Hook.Survives (hook : Hook) (pic : Bool) (elf_base : BitVec 64) : Prop :=
  if hook.absolute ∧ pic then 0 ≤ hook.address ∧ hook.address ≤ RELATIVE_ADDRESS_MAX
  else 0 ≤ hook.address ∧ hook.address < 2 ^ 62 ∧ (hook.absolute → elf_base = 0)

/-- An `mmap` that is called where it should: its address is positive, and relative unless the binary is
loaded at zero. -/
def Hook.MmapSurvives (hook : Hook) (pic : Bool) (elf_base : BitVec 64) : Prop :=
  0 < hook.address ∧ hook.Survives pic elf_base ∧ (hook.absolute → elf_base = 0)

/-! ### The tag -/

section
variable (x y : BitVec 64)

theorem tag_eq : E9_ABS_ADDR = BitVec.twoPow 64 62 := by decide

theorem and_tag : x &&& E9_ABS_ADDR = if x.toNat / 2 ^ 62 % 2 = 1 then E9_ABS_ADDR else 0 := by
  rw [tag_eq, BitVec.and_twoPow, ← BitVec.testBit_toNat, Nat.testBit_eq_decide_div_mod_eq]
  simp only [decide_eq_true_eq]
  rfl

theorem and_tag_add : (x &&& E9_ABS_ADDR) + (x &&& ~~~E9_ABS_ADDR) = x := by
  rw [BitVec.add_eq_or_of_and_eq_zero]
  · ext i hi
    simp only [BitVec.getElem_or, BitVec.getElem_and, BitVec.getElem_not]
    cases x[i] <;> cases E9_ABS_ADDR[i] <;> rfl
  · ext i hi
    simp only [BitVec.getElem_and, BitVec.getElem_not, BitVec.getElem_zero]
    cases x[i] <;> cases E9_ABS_ADDR[i] <;> rfl

theorem or_tag : x ||| E9_ABS_ADDR = E9_ABS_ADDR + (x &&& ~~~E9_ABS_ADDR) := by
  rw [BitVec.add_eq_or_of_and_eq_zero]
  · ext i hi
    simp only [BitVec.getElem_or, BitVec.getElem_and, BitVec.getElem_not]
    cases x[i] <;> cases E9_ABS_ADDR[i] <;> rfl
  · ext i hi
    simp only [BitVec.getElem_and, BitVec.getElem_not, BitVec.getElem_zero]
    cases x[i] <;> cases E9_ABS_ADDR[i] <;> rfl

theorem untag_toNat : (x &&& ~~~E9_ABS_ADDR).toNat =
    if x.toNat / 2 ^ 62 % 2 = 1 then x.toNat - 2 ^ 62 else x.toNat := by
  have htag : E9_ABS_ADDR.toNat = 2 ^ 62 := rfl
  have hadd := congrArg BitVec.toNat (and_tag_add x)
  rw [and_tag, BitVec.toNat_add] at hadd
  have hlt := (x &&& ~~~E9_ABS_ADDR).isLt
  split at hadd
  · rename_i hbit
    rw [if_pos hbit]
    omega
  · rename_i hbit
    rw [if_neg hbit]
    have hzero : (0 : BitVec 64).toNat = 0 := rfl
    omega

theorem tag_toNat : (x ||| E9_ABS_ADDR).toNat =
    if x.toNat / 2 ^ 62 % 2 = 1 then x.toNat else x.toNat + 2 ^ 62 := by
  have htag : E9_ABS_ADDR.toNat = 2 ^ 62 := rfl
  have hlt := x.isLt
  rw [or_tag, BitVec.toNat_add, untag_toNat]
  split <;> omega

theorem e9addr_toNat (elf_base : BitVec 64) : (e9addr x elf_base).toNat =
    if x.toNat / 2 ^ 62 % 2 = 1 then x.toNat - 2 ^ 62 else (elf_base.toNat + x.toNat) % 2 ^ 64 := by
  have htag : E9_ABS_ADDR ≠ 0 := by decide
  unfold e9addr
  rw [and_tag]
  by_cases hbit : x.toNat / 2 ^ 62 % 2 = 1
  · rw [if_pos hbit, if_pos htag, if_pos hbit, untag_toNat, if_pos hbit]
  · rw [if_neg hbit, if_neg (fun h => h rfl), if_neg hbit, BitVec.toNat_add]

end

theorem emitHook_toNat (p : Int) : (emitHook p).toNat =
    if IS_ABSOLUTE p ∧ (BASE_ADDRESS p % 2 ^ 64).toNat / 2 ^ 62 % 2 ≠ 1 then
      (BASE_ADDRESS p % 2 ^ 64).toNat + 2 ^ 62
    else (BASE_ADDRESS p % 2 ^ 64).toNat := by
  have hint : (BitVec.ofInt 64 (BASE_ADDRESS p)).toNat = (BASE_ADDRESS p % 2 ^ 64).toNat := BitVec.toNat_ofInt _
  unfold emitHook
  by_cases habs : IS_ABSOLUTE p
  · rw [if_pos habs, tag_toNat, hint]
    by_cases hbit : (BASE_ADDRESS p % 2 ^ 64).toNat / 2 ^ 62 % 2 = 1
    · rw [if_pos hbit, if_neg (fun h => h.2 hbit)]
    · rw [if_neg hbit, if_pos ⟨habs, hbit⟩]
  · rw [if_neg habs, if_neg (fun h => habs h.1), ← hint]
    exact congrArg BitVec.toNat BitVec.or_zero

/-! ### One hook -/

section
variable {hook : Hook} {pic : Bool} {elf_base : BitVec 64}

theorem Hook.target_toNat : (hook.target elf_base).toNat =
    if hook.absolute then (hook.address % 2 ^ 64).toNat
    else (elf_base.toNat + (hook.address % 2 ^ 64).toNat) % 2 ^ 64 := by
  have hint : (BitVec.ofInt 64 hook.address).toNat = (hook.address % 2 ^ 64).toNat := BitVec.toNat_ofInt _
  unfold Hook.target
  split
  · exact hint
  · rw [BitVec.toNat_add, hint]

/-- An init or fini is called at its address exactly if it survives. -/
theorem e9addr_emitHook (hbase : elf_base.toNat < 2 ^ 62) (hv : hook.Valid)
    (hlow : RELATIVE_ADDRESS_MIN ≤ convertAddress hook.absolute pic hook.address) :
    e9addr (emitHook (convertAddress hook.absolute pic hook.address)) elf_base = hook.target elf_base ↔
      hook.Survives pic elf_base := by
  obtain ⟨absolute, a⟩ := hook
  obtain ⟨h1, h2⟩ := hv
  rw [← BitVec.toNat_inj, e9addr_toNat, emitHook_toNat, Hook.target_toNat]
  have hzero : elf_base = 0 ↔ elf_base.toNat = 0 := by rw [← BitVec.toNat_inj]; rfl
  simp only [Hook.Survives, hzero]
  generalize elf_base.toNat = base at *
  simp only [INTPTR_MIN, INTPTR_MAX, RELATIVE_ADDRESS_MIN] at h1 h2 hlow
  by_cases hconv : absolute = true ∧ pic = true
  · -- an absolute address that was moved
    have habs : absolute = true := hconv.1
    have hp : convertAddress absolute pic a = a + 0x6000000000000000 := by rw [convertAddress, if_pos hconv]; rfl
    rw [if_pos hconv, if_pos habs]
    simp only [hp] at hlow ⊢
    by_cases hmoved : IS_ABSOLUTE (a + 0x6000000000000000)
    · have hb : BASE_ADDRESS (a + 0x6000000000000000) = a := by rw [BASE_ADDRESS, if_pos hmoved]; omega
      simp only [hb, hmoved, true_and]
      simp only [IS_ABSOLUTE, ABSOLUTE_ADDRESS_MIN, ABSOLUTE_ADDRESS_MAX, RELATIVE_ADDRESS_MAX] at hmoved ⊢
      split_ifs <;> omega
    · have hb : BASE_ADDRESS (a + 0x6000000000000000) = a + 0x6000000000000000 := by
        rw [BASE_ADDRESS, if_neg hmoved]
      simp only [hb, hmoved, false_and, if_false]
      simp only [IS_ABSOLUTE, ABSOLUTE_ADDRESS_MIN, ABSOLUTE_ADDRESS_MAX, RELATIVE_ADDRESS_MAX] at hmoved ⊢
      split_ifs <;> omega
  · have hp : convertAddress absolute pic a = a := by rw [convertAddress, if_neg hconv]
    rw [if_neg hconv]
    simp only [hp] at hlow ⊢
    by_cases hcoded : IS_ABSOLUTE a
    · have hb : BASE_ADDRESS a = a - 0x6000000000000000 := by rw [BASE_ADDRESS, if_pos hcoded]
      simp only [hb, hcoded, true_and]
      simp only [IS_ABSOLUTE, ABSOLUTE_ADDRESS_MIN, ABSOLUTE_ADDRESS_MAX] at hcoded
      cases absolute <;> simp only [Bool.false_eq_true, if_true, if_false, false_implies, true_implies] <;>
        split_ifs <;> omega
    · have hb : BASE_ADDRESS a = a := by rw [BASE_ADDRESS, if_neg hcoded]
      simp only [hb, hcoded, false_and, if_false]
      simp only [IS_ABSOLUTE, ABSOLUTE_ADDRESS_MIN, ABSOLUTE_ADDRESS_MAX] at hcoded
      cases absolute
      · simp only [Bool.false_eq_true, if_false, false_implies, and_true]
        split_ifs
        · omega
        · exact ⟨fun _ => by omega, fun _ => rfl⟩
      · simp only [if_true, true_implies]
        split_ifs <;> omega

/-- A converted address is never taken to be absolute. -/
theorem base_not_absolute (p : Int) : ¬IS_ABSOLUTE (BASE_ADDRESS p) := by
  unfold BASE_ADDRESS
  split
  · rename_i h
    simp only [IS_ABSOLUTE, ABSOLUTE_ADDRESS_MIN, ABSOLUTE_ADDRESS_MAX] at h ⊢
    omega
  · assumption

theorem emitMmap_toNat {p : Int} (hp : p ≠ INTPTR_MIN) : (emitMmap p).toNat = (BASE_ADDRESS p % 2 ^ 64).toNat := by
  rw [emitMmap, if_pos hp]
  simp only [if_neg (base_not_absolute p)]
  rw [show (BitVec.ofInt 64 (BASE_ADDRESS p) ||| 0) = BitVec.ofInt 64 (BASE_ADDRESS p) from BitVec.or_zero]
  exact BitVec.toNat_ofInt _

/-- The mapping function is called, and at its address, exactly if it survives. -/
theorem calledMmap_emitMmap (inits finis : List (BitVec 64)) (hbase : elf_base.toNat < 2 ^ 62) (hv : hook.Valid)
    (hlow : RELATIVE_ADDRESS_MIN ≤ convertAddress hook.absolute pic hook.address) :
    calledMmap ⟨inits, finis, emitMmap (convertAddress hook.absolute pic hook.address)⟩ elf_base =
        some (hook.target elf_base) ↔ hook.MmapSurvives pic elf_base := by
  obtain ⟨absolute, a⟩ := hook
  obtain ⟨h1, h2⟩ := hv
  have hmin : convertAddress absolute pic a ≠ INTPTR_MIN := fun h => by
    simp only [h, INTPTR_MIN, RELATIVE_ADDRESS_MIN] at hlow
    omega
  have hsome : calledMmap ⟨inits, finis, emitMmap (convertAddress absolute pic a)⟩ elf_base =
      some (Hook.target ⟨absolute, a⟩ elf_base) ↔ emitMmap (convertAddress absolute pic a) ≠ 0 ∧
        e9addr (emitMmap (convertAddress absolute pic a)) elf_base = Hook.target ⟨absolute, a⟩ elf_base := by
    unfold calledMmap
    split
    · rename_i h
      exact ⟨fun he => ⟨h, Option.some.inj he⟩, fun he => congrArg some he.2⟩
    · rename_i h
      exact ⟨fun he => absurd he (by simp), fun he => absurd he.1 h⟩
  have hnat : emitMmap (convertAddress absolute pic a) = 0 ↔
      (BASE_ADDRESS (convertAddress absolute pic a) % 2 ^ 64).toNat = 0 := by
    rw [← BitVec.toNat_inj, emitMmap_toNat hmin]
    rfl
  have hzero : elf_base = 0 ↔ elf_base.toNat = 0 := by rw [← BitVec.toNat_inj]; rfl
  rw [hsome, ne_eq, hnat, ← BitVec.toNat_inj, e9addr_toNat, emitMmap_toNat hmin, Hook.target_toNat]
  simp only [Hook.MmapSurvives, Hook.Survives, hzero]
  generalize elf_base.toNat = base at *
  simp only [INTPTR_MIN, INTPTR_MAX, RELATIVE_ADDRESS_MIN] at h1 h2 hlow
  clear hsome hnat hmin
  by_cases hconv : absolute = true ∧ pic = true
  · obtain ⟨rfl, rfl⟩ := hconv
    have hp : convertAddress true true a = a + 0x6000000000000000 := rfl
    simp only [hp, and_self, if_true, true_implies] at hlow ⊢
    by_cases hmoved : IS_ABSOLUTE (a + 0x6000000000000000)
    · have hb : BASE_ADDRESS (a + 0x6000000000000000) = a := by rw [BASE_ADDRESS, if_pos hmoved]; omega
      simp only [hb]
      simp only [IS_ABSOLUTE, ABSOLUTE_ADDRESS_MIN, ABSOLUTE_ADDRESS_MAX, RELATIVE_ADDRESS_MAX] at hmoved ⊢
      split_ifs <;> omega
    · have hb : BASE_ADDRESS (a + 0x6000000000000000) = a + 0x6000000000000000 := by
        rw [BASE_ADDRESS, if_neg hmoved]
      simp only [hb]
      simp only [IS_ABSOLUTE, ABSOLUTE_ADDRESS_MIN, ABSOLUTE_ADDRESS_MAX, RELATIVE_ADDRESS_MAX] at hmoved ⊢
      split_ifs <;> omega
  · have hp : convertAddress absolute pic a = a := by rw [convertAddress, if_neg hconv]
    rw [if_neg hconv]
    simp only [hp] at hlow ⊢
    by_cases hcoded : IS_ABSOLUTE a
    · have hb : BASE_ADDRESS a = a - 0x6000000000000000 := by rw [BASE_ADDRESS, if_pos hcoded]
      simp only [hb]
      simp only [IS_ABSOLUTE, ABSOLUTE_ADDRESS_MIN, ABSOLUTE_ADDRESS_MAX] at hcoded
      cases absolute <;> simp only [Bool.false_eq_true, if_true, if_false, false_implies, true_implies] <;>
        split_ifs <;> omega
    · have hb : BASE_ADDRESS a = a := by rw [BASE_ADDRESS, if_neg hcoded]
      simp only [hb]
      simp only [IS_ABSOLUTE, ABSOLUTE_ADDRESS_MIN, ABSOLUTE_ADDRESS_MAX] at hcoded
      cases absolute
      · simp only [Bool.false_eq_true, if_false, false_implies, and_true]
        split_ifs <;> omega
      · simp only [if_true, true_implies]
        split_ifs <;> omega

end

/-! ### Accepted messages -/

/-- No step changes whether the binary is position-independent. -/
theorem Step.pic {B B' : Binary} (hw : WellFormed B) (h : Step B B') : B'.pic = B.pic := by
  cases h with
  | instruction address length offset h => rw [(instruction_claims h).2]
  | reserve absolute address bytes length h => rw [(parseReserve_only hw.allocates h).2]
  | trampoline name template h => rw [parseTrampoline_only h]
  | mark I metadata T => rfl
  | queue I T hI h =>
      obtain ⟨C, hC, h⟩ := bind_ok.mp h
      cases h
      rw [(restate_spec queueByte_spec (fun b => .of_open (by decide) (by decide) (by decide)) hC).1]
  | postpone options analysis => rfl
  | options options analysis => rw [(applyOptions_same B options analysis).eq]
  | entrySet =>
      obtain ⟨Es, hEs⟩ := buildEntrySet_frame B
      rw [hEs]
  | cursor cursor => rfl
  | pop Q hQ => rfl
  | dequeue I hI h => rw [(unqueue_restates h).2.1]
  | patch I T hI h =>
      rcases patch_spec hw hI h with ⟨-, hu⟩ | ⟨C, P, Ps, -, hs, rfl⟩
      · rw [hu.progress.rest]
      · obtain ⟨Es, Traps, hC⟩ := commit_frame C (P :: Ps)
        rw [hC, hs.progress.rest]
  | tactic r h => rw [(h.progress hw).rest]
  | free K hK hp h => rw [(freeInstr_spec hw hK (hw.not_evicted hK hp) h).1.rest]
  | flag J v => rfl
  | place I J i T hJ hA h =>
      obtain ⟨ha, hin⟩ := allocatePunnedJump_spec hw.allocates hA
      rw [(applyJump_placed ha hin (user_ne_evictee T) h).1.progress.rest]

theorem Runs.pic {B B' : Binary} (hi : Invariant B) (h : Runs B B') : B'.pic = B.pic := by
  induction h with
  | refl => rfl
  | tail hr hs ih => rw [hs.pic (Runs.invariant hi hr).wellFormed, ih]

/-- The bytes of a reservation are at an address that the allocator knows. -/
theorem parseReserve_low {B B' : Binary} {absolute : List Bool} {address : List Int} {bytes : List Template}
    {length : List Int} {T : Template} {a : Int} (h : parseReserve B absolute address bytes length = .ok B')
    (hbytes : bytes.getLast? = some T) (ha : address.getLast? = some a) :
    RELATIVE_ADDRESS_MIN ≤ convertAddress (absolute.getLast?.getD false) B.pic a := by
  unfold parseReserve at h
  obtain ⟨a', ha', h⟩ := bind_ok.mp h
  obtain ⟨_, -, h⟩ := bind_ok.mp h
  obtain ⟨_, -, h⟩ := bind_ok.mp h
  obtain ⟨_, -, h⟩ := bind_ok.mp h
  rw [param_ok, ha] at ha'
  obtain rfl := Option.some.inj ha'
  unfold convertAddress
  generalize (if absolute.getLast?.getD false ∧ B.pic then ABSOLUTE_ADDRESS a else a) = addr at h ⊢
  rw [hbytes] at h
  obtain ⟨size, -, h⟩ := bind_ok.mp h
  rw [List.foldlM_cons, bind_ok] at h
  obtain ⟨C, -, h⟩ := h
  rw [List.foldlM_cons, bind_ok] at h
  obtain ⟨D, hD, -⟩ := h
  obtain ⟨o, ho, hD⟩ := bind_ok.mp hD
  unfold Binary.allocate at ho
  split at ho
  · cases ho
    cases hD
  · rename_i hverify
    rw [not_not] at hverify
    exact (verify_range hverify).1

section
variable {absolute pic : Bool} {address : Int} {bytes : List Template} {text : String}

theorem checkHook_ok {hook : Int} {u : Unit} (h : checkHook address bytes hook text = .ok u) :
    address ≤ hook ∧ ∃ T, bytes.getLast? = some T := by
  unfold checkHook at h
  split at h
  · cases h
  · rename_i T hT
    rw [failIf_ok] at h
    exact ⟨by omega, T, hT⟩

/-- What an accepted message adds to the inits or the finis. -/
theorem parseHook_ok {hooks hooks' : List Int} {hook : Option Int}
    (h : parseHook absolute pic address bytes hooks text hook = .ok hooks') :
    hooks' = hooks ++ (hook.map (convertAddress absolute pic)).toList ∧
      ∀ a ∈ hook, address ≤ convertAddress absolute pic a ∧ ∃ T, bytes.getLast? = some T := by
  cases hook with
  | none =>
      cases h
      exact ⟨(List.append_nil _).symm, fun a ha => by cases ha⟩
  | some a =>
      obtain ⟨u, hu, h⟩ := bind_ok.mp h
      cases h
      refine ⟨rfl, fun a' ha' => ?_⟩
      obtain rfl : a = a' := by simpa using ha'
      exact checkHook_ok hu

theorem parseMmap_ok {mmap mmap' : Int} {hook : Option Int}
    (h : parseMmap absolute pic address bytes mmap hook = .ok mmap') :
    (hook = none ∧ mmap' = mmap) ∨ ∃ a, hook = some a ∧ mmap = INTPTR_MIN ∧
      mmap' = convertAddress absolute pic a ∧ address ≤ mmap' ∧ ∃ T, bytes.getLast? = some T := by
  cases hook with
  | none =>
      cases h
      exact Or.inl ⟨rfl, rfl⟩
  | some a =>
      obtain ⟨u, hu, h⟩ := bind_ok.mp h
      obtain ⟨_, hfree, h⟩ := bind_ok.mp h
      cases h
      rw [failIf_ok, not_not] at hfree
      exact Or.inr ⟨a, rfl, hfree, rfl, checkHook_ok hu⟩

end

/-- The hooks of the back end are those of the messages, converted. -/
structure Collected (pic : Bool) (H H' : Hooks) (ms : List HookMessage) : Prop where
  inits : H'.inits = H.inits ++ (hooksOf (·.init) ms).map fun h => convertAddress h.absolute pic h.address
  finis : H'.finis = H.finis ++ (hooksOf (·.fini) ms).map fun h => convertAddress h.absolute pic h.address
  mmap : (hooksOf (·.mmap) ms = [] ∧ H'.mmap = H.mmap) ∨
    ∃ h, hooksOf (·.mmap) ms = [h] ∧ H.mmap = INTPTR_MIN ∧ H'.mmap = convertAddress h.absolute pic h.address
  low : ∀ kind ∈ [ReserveMessage.init, ReserveMessage.fini, ReserveMessage.mmap], ∀ h ∈ hooksOf kind ms,
    RELATIVE_ADDRESS_MIN ≤ convertAddress h.absolute pic h.address

theorem hooksOf_reserve (kind : ReserveMessage → List Int) (m : ReserveMessage) :
    hooksOf kind [.reserve m] = ((kind m).getLast?.map fun a => (⟨m.absolute.getLast?.getD false, a⟩ : Hook)).toList := by
  cases h : (kind m).getLast? <;> simp [hooksOf, h]

theorem parseReserveHooks_collects {s s' : Binary × Hooks} {m : ReserveMessage}
    (h : parseReserveHooks s m = .ok s') :
    parseReserve s.1 m.absolute m.address m.bytes m.length = .ok s'.1 ∧
      Collected s.1.pic s.2 s'.2 [.reserve m] := by
  obtain ⟨a, ha, h⟩ := bind_ok.mp h
  obtain ⟨_, -, h⟩ := bind_ok.mp h
  obtain ⟨_, -, h⟩ := bind_ok.mp h
  obtain ⟨inits, hinits, h⟩ := bind_ok.mp h
  obtain ⟨finis, hfinis, h⟩ := bind_ok.mp h
  obtain ⟨mmap, hmmap, h⟩ := bind_ok.mp h
  obtain ⟨_, -, h⟩ := bind_ok.mp h
  obtain ⟨B, hB, h⟩ := bind_ok.mp h
  cases h
  have hlow : ∀ {p : Int}, convertAddress (m.absolute.getLast?.getD false) s.1.pic a ≤ p →
      (∃ T, m.bytes.getLast? = some T) → RELATIVE_ADDRESS_MIN ≤ p := by
    rintro p hp ⟨T, hT⟩
    exact (parseReserve_low hB hT (param_ok.mp ha)).trans hp
  obtain ⟨rfl, hi⟩ := parseHook_ok hinits
  obtain ⟨rfl, hf⟩ := parseHook_ok hfinis
  have hm := parseMmap_ok hmmap
  refine ⟨hB, ?_, ?_, ?_, fun kind hkind hook hhook => ?_⟩
  · rw [hooksOf_reserve]
    cases m.init.getLast? <;> rfl
  · rw [hooksOf_reserve]
    cases m.fini.getLast? <;> rfl
  · rw [hooksOf_reserve]
    rcases hm with ⟨hnone, rfl⟩ | ⟨b, hb, hmin, rfl, -, -⟩
    · exact Or.inl ⟨by rw [hnone]; rfl, rfl⟩
    · exact Or.inr ⟨_, by rw [hb]; rfl, hmin, rfl⟩
  · rw [hooksOf_reserve, Option.mem_toList, Option.map_eq_some_iff] at hhook
    obtain ⟨b, hb, rfl⟩ := hhook
    simp only [List.mem_cons, List.not_mem_nil, or_false] at hkind
    rcases hkind with rfl | rfl | rfl
    · exact hlow (hi b hb).1 (hi b hb).2
    · exact hlow (hf b hb).1 (hf b hb).2
    · rcases hm with ⟨hnone, -⟩ | ⟨c, hc, -, rfl, hle, hT⟩
      · rw [hnone] at hb
        cases hb
      · rw [hc] at hb
        cases hb
        exact hlow hle hT

theorem hooksOf_cons (kind : ReserveMessage → List Int) (m : HookMessage) (ms : List HookMessage) :
    hooksOf kind (m :: ms) = hooksOf kind [m] ++ hooksOf kind ms := by
  rw [← List.singleton_append]
  exact List.filterMap_append

theorem Collected.cons {pic : Bool} {H H' H'' : Hooks} {m : HookMessage} {ms : List HookMessage}
    (h : Collected pic H H' [m]) (h' : Collected pic H' H'' ms) : Collected pic H H'' (m :: ms) := by
  refine ⟨?_, ?_, ?_, fun kind hkind hook hhook => ?_⟩
  · rw [h'.inits, h.inits, hooksOf_cons _ m ms, List.map_append, List.append_assoc]
  · rw [h'.finis, h.finis, hooksOf_cons _ m ms, List.map_append, List.append_assoc]
  · rw [hooksOf_cons _ m ms]
    rcases h.mmap with ⟨hnone, hsame⟩ | ⟨hook, hone, hmin, heq⟩
    · rw [hnone, List.nil_append, ← hsame]
      exact h'.mmap
    · rcases h'.mmap with ⟨hnone, hsame⟩ | ⟨hook', -, hmin', -⟩
      · exact Or.inr ⟨hook, by rw [hone, hnone, List.append_nil], hmin, hsame.trans heq⟩
      · -- the first one is not the value that stands for none
        have hlow := h.low ReserveMessage.mmap (by simp) hook (by rw [hone]; exact List.mem_singleton_self _)
        rw [← heq, hmin'] at hlow
        exact absurd hlow (by decide)
  · rw [hooksOf_cons _ m ms] at hhook
    rcases List.mem_append.mp hhook with hhook | hhook
    · exact h.low kind hkind hook hhook
    · exact h'.low kind hkind hook hhook

theorem hookMessages_collected {s s' : Binary × Hooks} {ms : List HookMessage} (hi : Invariant s.1)
    (h : ms.foldlM parseHookMessage s = .ok s') : Collected s.1.pic s.2 s'.2 ms := by
  induction ms generalizing s with
  | nil =>
      obtain rfl : s = s' := by simpa using h
      exact ⟨(List.append_nil _).symm, (List.append_nil _).symm, Or.inl ⟨rfl, rfl⟩,
        fun kind _ hook hhook => (List.not_mem_nil hhook).elim⟩
  | cons m ms ih =>
      rw [List.foldlM_cons, bind_ok] at h
      obtain ⟨t, ht, h⟩ := h
      have hfirst : Runs s.1 t.1 ∧ Collected s.1.pic s.2 t.2 [m] := by
        cases m with
        | reserve m =>
            obtain ⟨hr, hc⟩ := parseReserveHooks_collects ht
            exact ⟨.single (.reserve _ _ _ _ hr), hc⟩
        | other m =>
            obtain ⟨B, hB, rfl⟩ := map_ok.mp ht
            exact ⟨parseMessage_runs hi hB, (List.append_nil _).symm, (List.append_nil _).symm, Or.inl ⟨rfl, rfl⟩,
              fun kind _ hook hhook => (List.not_mem_nil hhook).elim⟩
      have hrest := ih (hfirst.1.invariant hi) h
      rw [hfirst.1.pic hi] at hrest
      exact hfirst.2.cons hrest

/-! ### From the messages to the loader -/

/-- **Hooks survive to the loader.** For the hooks of every stream of messages that is accepted, and a load
base in the lower part of the address space: the loader calls as many inits and finis as there are hooks, in
their order, each at its address exactly if it survives; and the mapping function at its address exactly if
it survives. -/
theorem hooks_called_iff {file : File} {mode : Mode} {options : Options} {analysis : Option (Nat → Bool)}
    {B₀ B : Binary} {H : Hooks} {ms : List HookMessage} {elf_base : BitVec 64}
    (h₀ : parseBinary file mode options analysis = .ok B₀)
    (h : ms.foldlM parseHookMessage (B₀, Hooks.none) = .ok (B, H))
    (hvalid : ∀ kind ∈ [ReserveMessage.init, ReserveMessage.fini, ReserveMessage.mmap],
      ∀ hook ∈ hooksOf kind ms, hook.Valid) (hbase : elf_base.toNat < 2 ^ 62) :
    ((calledInits (emitHooks H) elf_base).length = (hooksOf (·.init) ms).length ∧
      ∀ (i : Nat) (hook : Hook), (hooksOf (·.init) ms)[i]? = some hook →
        ((calledInits (emitHooks H) elf_base)[i]? = some (hook.target elf_base) ↔
          hook.Survives B₀.pic elf_base)) ∧
    ((calledFinis (emitHooks H) elf_base).length = (hooksOf (·.fini) ms).length ∧
      ∀ (i : Nat) (hook : Hook), (hooksOf (·.fini) ms)[i]? = some hook →
        ((calledFinis (emitHooks H) elf_base)[i]? = some (hook.target elf_base) ↔
          hook.Survives B₀.pic elf_base)) ∧
    ((hooksOf (·.mmap) ms = [] → calledMmap (emitHooks H) elf_base = none) ∧
      ∀ hook ∈ hooksOf (·.mmap) ms, (calledMmap (emitHooks H) elf_base = some (hook.target elf_base) ↔
        hook.MmapSurvives B₀.pic elf_base)) := by
  have hc := hookMessages_collected (parseBinary_invariant h₀) h
  have hcalled : ∀ kind ∈ [ReserveMessage.init, ReserveMessage.fini, ReserveMessage.mmap],
      ∀ called, called = (((hooksOf kind ms).map fun h => convertAddress h.absolute B₀.pic h.address).map
        emitHook).map (fun addr => e9addr addr elf_base) → called.length = (hooksOf kind ms).length ∧
        ∀ (i : Nat) (hook : Hook), (hooksOf kind ms)[i]? = some hook →
          (called[i]? = some (hook.target elf_base) ↔ hook.Survives B₀.pic elf_base) := by
    rintro kind hkind called rfl
    refine ⟨by simp only [List.length_map], fun i hook hi => ?_⟩
    have hm : hook ∈ hooksOf kind ms := List.mem_of_getElem? hi
    simp only [List.getElem?_map, hi, Option.map_some, Option.some.injEq]
    exact e9addr_emitHook hbase (hvalid kind hkind hook hm) (hc.low kind hkind hook hm)
  refine ⟨?_, ?_, ?_, fun hook hm => ?_⟩
  · refine hcalled ReserveMessage.init (by simp) _ ?_
    rw [calledInits, emitHooks, hc.inits]
    rfl
  · refine hcalled ReserveMessage.fini (by simp) _ ?_
    rw [calledFinis, emitHooks, hc.finis]
    rfl
  · intro hnone
    rcases hc.mmap with ⟨-, hsame⟩ | ⟨hook, hone, -, -⟩
    · rw [emitHooks, hsame]
      rfl
    · rw [hnone] at hone
      cases hone
  · rcases hc.mmap with ⟨hnone, -⟩ | ⟨hook', hone, -, heq⟩
    · rw [hnone] at hm
      cases hm
    · rw [hone] at hm
      obtain rfl := List.mem_singleton.mp hm
      have hm' : hook ∈ hooksOf ReserveMessage.mmap ms := by
        rw [show hooksOf ReserveMessage.mmap ms = [hook] from hone]
        exact List.mem_singleton_self _
      rw [emitHooks, heq]
      exact calledMmap_emitMmap _ _ hbase (hvalid _ (by simp) hook hm') (hc.low _ (by simp) hook hm')

/-! ### Sample hooks -/

/-- A message for two functions in five bytes at `address`. -/
def sampleHooks (absolute : List Bool) (address : Int) : ReserveMessage :=
  { absolute := absolute, address := [address], bytes := [⟨0, [.BYTES [0xc3, 0x90, 0x90, 0x90, 0xc3]]⟩]
    length := [], init := [address], fini := [], mmap := [address + 4] }

/-- A position-independent executable is loaded here. -/
def sampleBase : BitVec 64 := 0x555555554000

/-- The hooks of the stream with one such message. -/
def hookSample (absolute : List Bool) (address : Int) : Except Fault (Binary × Hooks) := do
  let B ← parseBinary sampleFile .ELF_EXE defaultOptions none
  [HookMessage.reserve (sampleHooks absolute address)].foldlM parseHookMessage (B, Hooks.none)

theorem hookSample_ok (absolute : List Bool) (address : Int)
    (h : (hookSample absolute address).toOption.isSome = true) :
    ∃ B₀ B H, parseBinary sampleFile .ELF_EXE defaultOptions none = .ok B₀ ∧
      [HookMessage.reserve (sampleHooks absolute address)].foldlM parseHookMessage (B₀, Hooks.none) = .ok (B, H) ∧
      hookSample absolute address = .ok (B, H) := by
  obtain ⟨r, hr⟩ : ∃ r, hookSample absolute address = .ok r :=
    ⟨_, ok_getD (d := (newBinary sampleFile .ELF_EXE defaultOptions, Hooks.none)) h⟩
  obtain ⟨B₀, h₀, h₁⟩ := bind_ok.mp hr
  exact ⟨B₀, r.1, r.2, h₀, h₁, hr⟩

/-- Both hooks of a relative message are called. -/
theorem relative_called : ∃ B₀ B H, parseBinary sampleFile .ELF_EXE defaultOptions none = .ok B₀ ∧
    [HookMessage.reserve (sampleHooks [] 0x10000)].foldlM parseHookMessage (B₀, Hooks.none) = .ok (B, H) ∧
    (calledInits (emitHooks H) sampleBase)[0]? = some (sampleBase + 0x10000) ∧
    calledMmap (emitHooks H) sampleBase = some (sampleBase + 0x10004) := by
  obtain ⟨B₀, B, H, h₀, h, -⟩ := hookSample_ok [] 0x10000 (by decide +kernel)
  have hcalled := hooks_called_iff h₀ h (fun kind hkind hook hm => by
    simp only [List.mem_cons, List.not_mem_nil, or_false] at hkind
    rcases hkind with rfl | rfl | rfl <;> simp [hooksOf, sampleHooks] at hm <;> subst hm <;>
      exact ⟨by decide, by decide⟩)
    (show sampleBase.toNat < 2 ^ 62 by decide)
  refine ⟨B₀, B, H, h₀, h, ?_, ?_⟩
  · refine (hcalled.1.2 0 ⟨false, 0x10000⟩ rfl).mpr ?_
    exact ⟨by decide, by decide, fun hf => by cases hf⟩
  · refine (hcalled.2.2.2 ⟨false, 0x10004⟩ (List.mem_singleton_self _)).mpr ?_
    exact ⟨by decide, ⟨by decide, by decide, fun hf => by cases hf⟩, fun hf => by cases hf⟩

/-- An absolute mapping function is called relative to the load base. -/
theorem absolute_mmap_moved : ∃ B₀ B H, parseBinary sampleFile .ELF_EXE defaultOptions none = .ok B₀ ∧
    [HookMessage.reserve (sampleHooks [true] 0x10000)].foldlM parseHookMessage (B₀, Hooks.none) = .ok (B, H) ∧
    (⟨true, 0x10004⟩ : Hook) ∈ hooksOf (·.mmap) [.reserve (sampleHooks [true] 0x10000)] ∧
    calledMmap (emitHooks H) sampleBase = some (sampleBase + 0x10004) ∧
    calledMmap (emitHooks H) sampleBase ≠ some ((⟨true, 0x10004⟩ : Hook).target sampleBase) := by
  obtain ⟨B₀, B, H, h₀, h, hr⟩ := hookSample_ok [true] 0x10000 (by decide +kernel)
  have hcalled : (hookSample [true] 0x10000).toOption.map (fun r => calledMmap (emitHooks r.2) sampleBase) =
      some (some (sampleBase + 0x10004)) := by decide +kernel
  rw [hr] at hcalled
  have hmmap := Option.some.inj hcalled
  refine ⟨B₀, B, H, h₀, h, List.mem_singleton_self _, hmmap, fun hne => ?_⟩
  rw [show calledMmap (emitHooks H) sampleBase = some (sampleBase + 0x10004) from hmmap] at hne
  exact absurd (Option.some.inj hne) (by decide)

end E9Patch
