import E9Patch.FailedRelocation
import E9Patch.PatchState

/-!
The layout that both passes over a trampoline are to follow: each entry begins where the one before it
ends, and a copy has the length of the relocated instruction. It exists where every copy can be made at its
place. Then the pass for the labels and the pass for the bytes count the same addresses.
-/

namespace E9Patch
open Bytes Binary Fallible

/-! ### The layout -/

instance (o : Options) (addr offset : Int) (size : Nat) (pic : Bool) :
    Decidable (ReturnReachable o addr offset size pic) :=
  inferInstanceAs (Decidable (_ ∨ _))

instance (s : CopyShape) (o : Options) (addr offset : Int) (size : Nat) (pic relax : Bool) :
    Decidable (s.Relocatable o addr offset size pic relax) :=
  inferInstanceAs (Decidable (s.rsp = false ∧ (relax = true ∨ (s.ret = true → ReturnReachable o addr offset size pic) ∧
    ∀ d ∈ s.disp, fitsInt32 (addr + size + d - (addr + offset + s.returnLength o addr size pic + s.length)) = true)))

instance (B : Binary) (I : Nat) (dest : Int) : Decidable (Relocatable B I dest) :=
  inferInstanceAs (Decidable (CopyShape.Relocatable _ _ _ _ _ _ _))

/-- The length of the copy of `J`. -/
def copySize (B : Binary) (J : Nat) : Nat := copyLength B.options (B.Is J).addr (B.ORIG J) (B.Is J).pic

/-- The end of the copy of `J` that begins at `pos`, in a buffer that ends at `limit`. -/
def placeCopy (B : Binary) (limit : Int) (J : Nat) (pos : Int) : Except Fault Int := do
  assert (Relocatable B J pos ∧ pos + copySize B J ≤ limit)
  .ok (pos + copySize B J)

/-- The end of the `n` instructions of an epilogue from `J`. -/
def placeEpilogue (B : Binary) (limit : Int) : Nat → Option Nat → Int → Except Fault Int
  | 0, _, pos => .ok pos
  | n + 1, J, pos => do
    let J ← deref J
    if (B.Is J).isBreak then .ok (pos + 5)
    else do
      let pos ← placeCopy B limit J pos
      placeEpilogue B limit n (B.next J) pos

/-- The end of a break. -/
def placeBreak (B : Binary) (limit : Int) (I : Nat) (fallthrough optimize : Bool) (pos : Int) : Except Fault Int :=
  if fallthrough then .ok pos
  else if !optimize || (B.Is I).no_optimize then .ok (pos + 5)
  else
    let e := findEpilogue B B.options.option_Oepilogue I 0
    if !e.2 then .ok (pos + 5)
    else do
      let r ← placeEpilogue B limit e.1 (B.next I) pos
      assert (r - pos < 2 ^ 31)
      .ok r

/-- The end of an entry. No batch stands in a template: T0 makes a trampoline of it alone. -/
def placeEntry (B : Binary) (rec : Trampoline → Option Nat → Bool → Int → Except Fault Int) (limit : Int)
    (last : Bool) (entry : Entry) (isLast : Bool) (I : Option Nat) (pos : Int) : Except Fault Int :=
  match entry with
  | .DEBUG => .ok (pos + if I.any fun I => (B.Is I).debug then 1 else 0)
  | .BYTES bytes => .ok (pos + bytes.length)
  | .ZEROES length => .ok (pos + length)
  | .INT8 _ => .ok (pos + 1)
  | .INT16 _ => .ok (pos + 2)
  | .INT32 _ => .ok (pos + 4)
  | .INT64 _ => .ok (pos + 8)
  | .LABEL _ => .ok pos
  | .MACRO name => do
    let J ← deref I
    let U ← deref (expandMacro B (B.Is J).metadata name)
    rec U I last pos
  | .REL8 _ => .ok (pos + 1)
  | .REL32 _ => .ok (pos + 4)
  | .INSTR => do
    let J ← deref I
    placeCopy B limit J pos
  | .INSTR_BYTES => do
    let J ← deref I
    .ok (pos + (B.Is J).size)
  | .BREAK optimize => do
    let J ← deref I
    placeBreak B limit J (!last && isLast) (last && optimize) pos
  | .TAKE => .ok (pos + 5)
  | .BATCH _ => .error .assertion

def placeEntries (B : Binary) (rec : Trampoline → Option Nat → Bool → Int → Except Fault Int) (limit : Int)
    (last : Bool) : List Entry → Option Nat → Int → Except Fault Int
  | [], _, pos => .ok pos
  | entry :: entries, I, pos => do
    let pos ← placeEntry B rec limit last entry entries.isEmpty I pos
    placeEntries B rec limit last entries I pos

/-- The end of the code of a template. -/
def placeCode (B : Binary) (limit : Int) : Nat → Trampoline → Option Nat → Bool → Int → Except Fault Int
  | 0, _, _, _, _ => .error .null
  | fuel + 1, T, I, last, pos => placeEntries B (placeCode B limit fuel) limit last T.entries I pos

/-! ### Copies -/

theorem Buffer.push_size (buf : Buffer) (bytes : List UInt8) : (buf.push bytes).size = buf.size + bytes.length :=
  List.length_append

section
variable {B : Binary} {limit base pos e : Int} {J : Nat} {buf : Buffer}

theorem placeCopy_ok : placeCopy B limit J pos = .ok e ↔
    (Relocatable B J pos ∧ pos + copySize B J ≤ limit) ∧ e = pos + copySize B J := by
  unfold placeCopy
  rw [bind_ok]
  constructor
  · rintro ⟨u, hu, h⟩
    cases h
    exact ⟨assert_ok.mp hu, rfl⟩
  · rintro ⟨hu, rfl⟩
    exact ⟨(), assert_ok.mpr hu, rfl⟩

/-- The copy is as long as either pass without the buffer says. -/
theorem copySize_eq (hsize : (B.Is J).size ≤ 15) (h : Relocatable B J pos) :
    relocateLength B J pos = copySize B J ∧ relocateSize B J = copySize B J := by
  have hle : copySize B J ≤ 48 := copyLength_le hsize h
  have hroom : HasRoom B J ⟨[], UINT32_MAX⟩ := by
    unfold HasRoom
    unfold copySize at hle
    simp only [Buffer.size, List.length_nil, UINT32_MAX]
    omega
  have hrelaxed : Relocatable B J INTPTR_MIN := ⟨h.1, Or.inl (decide_eq_true rfl)⟩
  exact ⟨relocateInstrTo_fits hsize h hroom, relocateInstrTo_fits hsize hrelaxed hroom⟩

/-- The copy that the pass for the bytes makes. -/
theorem relocateInstrTo_copies (hsize : (B.Is J).size ≤ 15) (h : Relocatable B J pos) (hroom : HasRoom B J buf) :
    ∃ code, code.length = copySize B J ∧ relocateInstrTo B J pos buf = ((copySize B J : Int), buf.push code) := by
  have hfits := relocateInstrTo_fits hsize h hroom
  have hpos : 0 ≤ (relocateInstrTo B J pos buf).1 := by
    rw [hfits]
    exact Int.natCast_nonneg _
  rw [relocateInstrTo_offset] at hpos hfits ⊢
  obtain ⟨-, heq⟩ := relocateInstr_ok hpos
  rw [heq] at hfits ⊢
  exact ⟨_, Int.ofNat.inj hfits, Prod.ext hfits rfl⟩

theorem placeCopy_copies (hsize : (B.Is J).size ≤ 15) (h : placeCopy B (base + buf.max) J (base + buf.size) = .ok e) :
    ∃ code, e = base + (buf.push code).size ∧
      relocateInstrTo B J (base + buf.size) buf = ((code.length : Int), buf.push code) := by
  obtain ⟨⟨hr, hlimit⟩, rfl⟩ := placeCopy_ok.mp h
  have hroom : HasRoom B J buf := by
    unfold HasRoom
    unfold copySize at hlimit
    omega
  obtain ⟨code, hlength, heq⟩ := relocateInstrTo_copies hsize hr hroom
  refine ⟨code, ?_, by rw [heq, hlength]⟩
  rw [Buffer.push_size, hlength]
  omega

end

/-! ### Breaks -/

section
variable {B : Binary} {limit base pos e addr : Int} {buf : Buffer} {breaks : BreakInfo}

theorem buildBreakJump_jumps {I : Option Nat} {r : Int × Buffer}
    (h : buildBreakJump B I addr .BYTES breaks buf = .ok r) :
    ∃ J target, I = some J ∧ target = (breaks.find (B.Is J).addr).getD ((B.Is J).addr + (B.Is J).size) ∧
      fitsInt32 (target - (addr + 5)) = true ∧ r = (5, buf.push (0xE9 :: le32 (target - (addr + 5)))) := by
  unfold buildBreakJump at h
  simp only [bind_ok, deref_ok, assert_ok] at h
  obtain ⟨J, hJ, _, hfits, h⟩ := h
  cases h
  exact ⟨J, _, hJ, rfl, hfits, rfl⟩

theorem buildBreakJump_size {I : Option Nat} {r : Int × Buffer}
    (h : buildBreakJump B I addr .BYTES breaks buf = .ok r) : r.1 = 5 ∧ r.2.size = buf.size + 5 := by
  obtain ⟨J, target, -, -, -, rfl⟩ := buildBreakJump_jumps h
  refine ⟨rfl, ?_⟩
  rw [Buffer.push_size, List.length_cons, le32_length]

theorem placeEpilogue_le {n : Nat} {J : Option Nat} (h : placeEpilogue B limit n J pos = .ok e) : pos ≤ e := by
  induction n generalizing J pos with
  | zero =>
      cases h
      exact Int.le_refl _
  | succ n ih =>
      unfold placeEpilogue at h
      obtain ⟨K, -, h⟩ := bind_ok.mp h
      split at h
      · cases h
        omega
      · obtain ⟨pos', hpos, h⟩ := bind_ok.mp h
        obtain ⟨-, rfl⟩ := placeCopy_ok.mp hpos
        have := ih h
        omega

/-- The epilogue as the pass for the labels counts it. -/
theorem buildEpilogue_counts (hw : WellFormed B) {n : Nat} {J : Option Nat} {r : Bool × Int × Buffer}
    (hJ : ∀ j ∈ J, j < B.count) (hp : placeEpilogue B limit n J pos = .ok e)
    (h : buildEpilogue B .SIZE breaks n J addr buf = .ok r) : r.1 = true ∧ r.2.1 = addr + (e - pos) := by
  induction n generalizing J pos addr with
  | zero =>
      cases hp
      cases h
      refine ⟨rfl, ?_⟩
      simp only
      omega
  | succ n ih =>
      unfold placeEpilogue at hp
      unfold buildEpilogue at h
      obtain ⟨K, hK, hp, h⟩ := bind_both hp h
      have hsize := (hw.size K (hJ K (deref_ok.mp hK))).2
      by_cases hbreak : (B.Is K).isBreak = true
      · rw [if_pos hbreak] at hp h
        obtain ⟨_, -, h⟩ := bind_ok.mp h
        cases hp
        cases h
        refine ⟨rfl, ?_⟩
        simp only
        omega
      · rw [if_neg hbreak] at hp h
        obtain ⟨pos', hpos, hp⟩ := bind_ok.mp hp
        obtain ⟨⟨hr, -⟩, rfl⟩ := placeCopy_ok.mp hpos
        have hle : copySize B K ≤ 48 := copyLength_le hsize hr
        obtain ⟨h1, h2⟩ := ih (fun j hj => (next_some hw hj).2) hp h
        refine ⟨h1, ?_⟩
        rw [h2, (copySize_eq hsize hr).2]
        omega

/-- The epilogue as the pass for the bytes makes it. -/
theorem buildEpilogue_fills (hw : WellFormed B) {n : Nat} {J : Option Nat} {r : Bool × Int × Buffer}
    (hJ : ∀ j ∈ J, j < B.count) (hp : placeEpilogue B (base + buf.max) n J (base + buf.size) = .ok e)
    (h : buildEpilogue B .BYTES breaks n J (base + buf.size) buf = .ok r) : r.1 = true ∧ e = base + r.2.2.size := by
  induction n generalizing J buf with
  | zero =>
      cases hp
      cases h
      exact ⟨rfl, rfl⟩
  | succ n ih =>
      unfold placeEpilogue at hp
      unfold buildEpilogue at h
      obtain ⟨K, hK, hp, h⟩ := bind_both hp h
      have hsize := (hw.size K (hJ K (deref_ok.mp hK))).2
      by_cases hbreak : (B.Is K).isBreak = true
      · rw [if_pos hbreak] at hp h
        obtain ⟨_, -, h⟩ := bind_ok.mp h
        obtain ⟨s, hs, h⟩ := bind_ok.mp h
        cases hp
        cases h
        refine ⟨rfl, ?_⟩
        rw [(buildBreakJump_size hs).2]
        omega
      · rw [if_neg hbreak] at hp h
        obtain ⟨pos', hpos, hp⟩ := bind_ok.mp hp
        have hsmall : copySize B K ≤ 48 := copyLength_le hsize (placeCopy_ok.mp hpos).1.1
        obtain ⟨code, rfl, hcopy⟩ := placeCopy_copies hsize hpos
        simp only [hcopy, Int.natCast_nonneg, ge_iff_le, if_true] at h
        have hlength : base + buf.size + (code.length : Int) % 2 ^ 32 = base + (buf.push code).size := by
          have := (placeCopy_ok.mp hpos).2
          rw [Buffer.push_size] at this ⊢
          omega
        rw [hlength] at h
        exact ih (fun j hj => (next_some hw hj).2) hp h

/-- A break as the pass for the labels counts it, from any address. -/
theorem buildBreak_counts (hw : WellFormed B) {I : Nat} {fallthrough optimize : Bool} {r : Int × Buffer}
    (hp : placeBreak B limit I fallthrough optimize pos = .ok e)
    (h : buildBreak B I addr fallthrough optimize .SIZE breaks buf = .ok r) : e = pos + r.1 := by
  unfold placeBreak at hp
  unfold buildBreak at h
  split at hp
  · rename_i hfall
    rw [if_pos hfall] at h
    cases hp
    cases h
    exact (Int.add_zero _).symm
  rename_i hfall
  rw [if_neg hfall] at h
  split at hp
  · rename_i hopt
    rw [if_pos hopt] at h
    cases hp
    cases h
    rfl
  rename_i hopt
  rw [if_neg hopt] at h
  simp only at hp h
  split at hp
  · rename_i hcft
    rw [if_pos hcft] at h
    cases hp
    cases h
    rfl
  rename_i hcft
  rw [if_neg hcft] at h
  obtain ⟨e', he, hp⟩ := bind_ok.mp hp
  obtain ⟨_, hlt, hp⟩ := bind_ok.mp hp
  rw [assert_ok] at hlt
  cases hp
  obtain ⟨s, hs, h⟩ := bind_ok.mp h
  obtain ⟨h1, h2⟩ := buildEpilogue_counts hw (fun j hj => (next_some hw hj).2) he hs
  have hle := placeEpilogue_le he
  rw [h1] at h
  cases h
  simp only
  rw [h2, signed32_eq (by omega) (by omega)]
  omega

/-- A break as the pass for the bytes makes it. -/
theorem buildBreak_fills (hw : WellFormed B) {I : Nat} {fallthrough optimize : Bool} {r : Int × Buffer}
    (hp : placeBreak B (base + buf.max) I fallthrough optimize (base + buf.size) = .ok e)
    (h : buildBreak B I (base + buf.size) fallthrough optimize .BYTES breaks buf = .ok r) : e = base + r.2.size := by
  have hjump : ∀ {r}, buildBreakJump B (some I) (base + buf.size) .BYTES breaks buf = .ok r →
      base + buf.size + 5 = base + r.2.size := by
    intro r hr
    rw [(buildBreakJump_size hr).2]
    omega
  unfold placeBreak at hp
  unfold buildBreak at h
  split at hp
  · rename_i hfall
    rw [if_pos hfall] at h
    cases hp
    cases h
    rfl
  rename_i hfall
  rw [if_neg hfall] at h
  split at hp
  · rename_i hopt
    rw [if_pos hopt] at h
    cases hp
    exact hjump h
  rename_i hopt
  rw [if_neg hopt] at h
  simp only at hp h
  split at hp
  · rename_i hcft
    rw [if_pos hcft] at h
    cases hp
    exact hjump h
  rename_i hcft
  rw [if_neg hcft] at h
  obtain ⟨e', he, hp⟩ := bind_ok.mp hp
  obtain ⟨_, -, hp⟩ := bind_ok.mp hp
  cases hp
  obtain ⟨s, hs, h⟩ := bind_ok.mp h
  obtain ⟨h1, h2⟩ := buildEpilogue_fills hw (fun j hj => (next_some hw hj).2) he hs
  rw [h1] at h
  cases h
  exact h2

end

/-! ### What the pass for the bytes writes stays -/

/-- All that happened to the buffer is that bytes were pushed. -/
def Buffer.Grows (buf buf' : Buffer) : Prop := ∃ code, buf' = buf.push code

theorem Buffer.Grows.refl (buf : Buffer) : buf.Grows buf := ⟨[], (Buffer.push_eq_self.mpr rfl).symm⟩

theorem Buffer.Grows.trans {buf buf' buf'' : Buffer} (h : buf.Grows buf') (h' : buf'.Grows buf'') :
    buf.Grows buf'' := by
  obtain ⟨code, rfl⟩ := h
  obtain ⟨code', rfl⟩ := h'
  exact ⟨code ++ code', Buffer.push_push buf code code'⟩

theorem Buffer.grows_push (buf : Buffer) (code : List UInt8) : buf.Grows (buf.push code) := ⟨code, rfl⟩

theorem Buffer.Grows.max {buf buf' : Buffer} (h : buf.Grows buf') : buf'.max = buf.max := by
  obtain ⟨code, rfl⟩ := h
  rfl

section
variable {B : Binary} {base addr : Int} {breaks : BreakInfo} {labels : LabelSet} {buf buf' : Buffer}

theorem buildBreak_grows {I : Nat} {fallthrough optimize : Bool} {r : Int × Buffer}
    (h : buildBreak B I (base + buf.size) fallthrough optimize .BYTES breaks buf = .ok r) : buf.Grows r.2 := by
  have hjump : ∀ {r}, buildBreakJump B (some I) (base + buf.size) .BYTES breaks buf = .ok r → buf.Grows r.2 :=
    fun hr => buildBreakJump_pushes hr
  unfold buildBreak at h
  split at h
  · cases h
    exact .refl buf
  split at h
  · exact hjump h
  rename_i hopt
  simp only at h
  split at h
  · exact hjump h
  rename_i hcft
  obtain ⟨s, hs, h⟩ := bind_ok.mp h
  split at h
  · rename_i hfail
    obtain ⟨bytes, hbytes⟩ := buildEpilogue_pushes hs
    rw [hbytes, Buffer.reset_push] at h
    exact hjump h
  · cases h
    exact buildEpilogue_pushes hs

/-- What each round of the loop of a batch keeps, all of it keeps. -/
theorem batchLoop_keeps {α : Type} {P : α → Prop} {stop : Int}
    {body : α → Nat → Bool → Except Fault (Option α)}
    (hbody : ∀ {a I last a'}, P a → body a I last = .ok (some a') → P a') {fuel : Nat} {a a' : α}
    {J I J' I' : Option Nat} (ha : P a) (h : batchLoop B stop body fuel a J I = .ok (some (a', J', I'))) : P a' := by
  induction fuel generalizing a J I with
  | zero =>
      cases h
      exact ha
  | succ fuel ih =>
      unfold batchLoop at h
      split at h
      · cases h
        exact ha
      split at h
      · cases h
        exact ha
      obtain ⟨o, ho, h⟩ := bind_ok.mp h
      cases o with
      | none => cases h
      | some b => exact ih (hbody ha ho) h

theorem memberBytes_grows {rec : Trampoline → Option Nat → Bool → Buffer → Except Fault Buffer} {I : Nat} {last : Bool}
    (hrec : ∀ {T I last buf buf'}, rec T I last buf = .ok buf' → buf.Grows buf')
    (h : memberBytes B rec base buf I last = .ok (some buf')) : buf.Grows buf' := by
  unfold memberBytes at h
  split at h
  · obtain ⟨buf₁, hbuf₁, h⟩ := bind_ok.mp h
    cases h
    exact hrec hbuf₁
  · simp only at h
    split at h
    · cases h
    · cases h
      exact relocateInstrTo_pushes B I (base + buf.size) buf

theorem entryBytes_grows {rec : Trampoline → Option Nat → Bool → Buffer → Except Fault Buffer} {last isLast : Bool}
    {entry : Entry} {I I' : Option Nat} (hrec : ∀ {T I last buf buf'}, rec T I last buf = .ok buf' → buf.Grows buf')
    (h : entryBytes B rec base last breaks labels entry isLast I buf = .ok (I', buf')) : buf.Grows buf' := by
  cases entry with
  | DEBUG =>
      cases h
      split
      · exact Buffer.grows_push buf _
      · exact .refl buf
  | BYTES bytes =>
      cases h
      exact Buffer.grows_push buf _
  | ZEROES length =>
      cases h
      exact Buffer.grows_push buf _
  | INT8 value | INT16 value | INT32 value | INT64 value =>
      obtain ⟨val, -, h⟩ := bind_ok.mp h
      cases h
      exact Buffer.grows_push buf _
  | LABEL label =>
      cases h
      exact .refl buf
  | MACRO name =>
      obtain ⟨J, -, h⟩ := bind_ok.mp h
      split at h
      · cases h
      · obtain ⟨buf₁, hbuf₁, h⟩ := bind_ok.mp h
        cases h
        exact hrec hbuf₁
  | REL8 value | REL32 value =>
      obtain ⟨rel, -, h⟩ := bind_ok.mp h
      simp only at h
      split at h
      · cases h
      · cases h
        exact Buffer.grows_push buf _
  | INSTR =>
      obtain ⟨J, -, h⟩ := bind_ok.mp h
      cases h
      exact relocateInstrTo_pushes B J (base + buf.size) buf
  | INSTR_BYTES =>
      obtain ⟨J, -, h⟩ := bind_ok.mp h
      cases h
      exact Buffer.grows_push buf _
  | BREAK optimize =>
      obtain ⟨J, -, h⟩ := bind_ok.mp h
      obtain ⟨r, hr, h⟩ := bind_ok.mp h
      cases h
      exact buildBreak_grows hr
  | TAKE =>
      obtain ⟨J, -, h⟩ := bind_ok.mp h
      split at h
      · cases h
      · obtain ⟨_, -, h⟩ := bind_ok.mp h
        cases h
        exact Buffer.grows_push buf _
  | BATCH stop =>
      obtain ⟨o, ho, h⟩ := bind_ok.mp h
      cases o with
      | none =>
          cases h
          exact .refl _
      | some o =>
          have hloop := batchLoop_keeps (P := buf.Grows) (fun ha hb => ha.trans (memberBytes_grows hrec hb))
            (.refl buf) ho
          obtain ⟨J, -, h⟩ := bind_ok.mp h
          split at h
          · obtain ⟨r, hr, h⟩ := bind_ok.mp h
            cases h
            exact hloop.trans (buildBreak_grows hr)
          · cases h
            exact hloop

/-- The pass for the bytes only ever pushes. -/
theorem buildBytes_grows {fuel : Nat} {T : Trampoline} {I : Option Nat} {last : Bool}
    (h : buildBytes B base breaks labels fuel T I last buf = .ok buf') : buf.Grows buf' := by
  induction fuel generalizing T I last buf buf' with
  | zero => cases h
  | succ fuel ih =>
      unfold buildBytes at h
      have hentries : ∀ {entries : List Entry} {I : Option Nat} {buf : Buffer},
          entriesBytes B (buildBytes B base breaks labels fuel) base last breaks labels entries I buf = .ok buf' →
            buf.Grows buf' := by
        intro entries
        induction entries with
        | nil =>
            intro I buf h
            cases h
            exact .refl _
        | cons entry entries ihe =>
            intro I buf h
            obtain ⟨⟨I₁, buf₁⟩, hentry, h⟩ := bind_ok.mp h
            exact (entryBytes_grows ih hentry).trans (ihe h)
      exact hentries h

end

/-! ### Both passes follow the layout -/

section
variable {B : Binary} {base e limit : Int} {breaks : BreakInfo} {labels : LabelSet} {buf buf' : Buffer}
  {a a' : LabelPass}

theorem entryLabels_follows (hw : WellFormed B) {recP : Trampoline → Option Nat → Bool → Int → Except Fault Int}
    {recL : Trampoline → Option Nat → Bool → LabelPass → Except Fault LabelPass} {last isLast : Bool} {entry : Entry}
    {I I' : Option Nat} (hI : ∀ k ∈ I, k < B.count)
    (hrec : ∀ {T last a a' e}, recP T I last a.addr = .ok e → recL T I last a = .ok a' → a'.addr = e)
    (hp : placeEntry B recP limit last entry isLast I a.addr = .ok e)
    (h : entryLabels B recL last entry isLast I a = .ok (I', a')) : I' = I ∧ a'.addr = e := by
  cases entry with
  | DEBUG | BYTES bytes | ZEROES length | INT8 value | INT16 value | INT32 value | INT64 value | REL8 value
  | REL32 value | TAKE =>
      cases hp
      cases h
      exact ⟨rfl, rfl⟩
  | LABEL label =>
      cases hp
      obtain ⟨J, -, h⟩ := bind_ok.mp h
      split at h
      · cases h
      · cases h
        exact ⟨rfl, rfl⟩
  | MACRO name =>
      obtain ⟨J, hJ, hp, h⟩ := bind_both hp h
      obtain ⟨U, hU, hp⟩ := bind_ok.mp hp
      rw [deref_ok.mp hU] at h
      obtain ⟨a₁, ha₁, h⟩ := bind_ok.mp h
      cases h
      exact ⟨rfl, hrec hp ha₁⟩
  | INSTR =>
      obtain ⟨J, hJ, hp, h⟩ := bind_both hp h
      obtain ⟨⟨hr, -⟩, rfl⟩ := placeCopy_ok.mp hp
      cases h
      refine ⟨rfl, ?_⟩
      rw [LabelPass.advance_addr, (copySize_eq (hw.size J (hI J (deref_ok.mp hJ))).2 hr).1]
  | INSTR_BYTES =>
      obtain ⟨J, hJ, hp, h⟩ := bind_both hp h
      cases hp
      cases h
      exact ⟨rfl, rfl⟩
  | BREAK optimize =>
      obtain ⟨J, hJ, hp, h⟩ := bind_both hp h
      obtain ⟨r, hr, h⟩ := bind_ok.mp h
      cases h
      exact ⟨rfl, (buildBreak_counts hw hp hr).symm⟩
  | BATCH stop => cases hp

theorem entryBytes_follows (hw : WellFormed B) {recP : Trampoline → Option Nat → Bool → Int → Except Fault Int}
    {recB : Trampoline → Option Nat → Bool → Buffer → Except Fault Buffer} {last isLast : Bool} {entry : Entry}
    {I I' : Option Nat} (hI : ∀ k ∈ I, k < B.count)
    (hrec : ∀ {T last e}, recP T I last (base + buf.size) = .ok e → recB T I last buf = .ok buf' → e = base + buf'.size)
    (hp : placeEntry B recP (base + buf.max) last entry isLast I (base + buf.size) = .ok e)
    (h : entryBytes B recB base last breaks labels entry isLast I buf = .ok (I', buf')) :
    I' = I ∧ e = base + buf'.size := by
  have hpush : ∀ {code : List UInt8} {n : Nat}, code.length = n → base + buf.size + n = base + (buf.push code).size := by
    intro code n hn
    rw [Buffer.push_size, hn]
    omega
  cases entry with
  | DEBUG =>
      cases hp
      cases h
      refine ⟨rfl, ?_⟩
      split
      · exact hpush rfl
      · omega
  | BYTES bytes =>
      cases hp
      cases h
      exact ⟨rfl, hpush rfl⟩
  | ZEROES length =>
      cases hp
      cases h
      exact ⟨rfl, hpush List.length_replicate⟩
  | INT8 value | INT16 value | INT32 value | INT64 value =>
      cases hp
      obtain ⟨val, -, h⟩ := bind_ok.mp h
      cases h
      exact ⟨rfl, hpush rfl⟩
  | LABEL label =>
      cases hp
      cases h
      exact ⟨rfl, rfl⟩
  | MACRO name =>
      obtain ⟨J, hJ, hp, h⟩ := bind_both hp h
      obtain ⟨U, hU, hp⟩ := bind_ok.mp hp
      rw [deref_ok.mp hU] at h
      obtain ⟨buf₁, hbuf₁, h⟩ := bind_ok.mp h
      cases h
      exact ⟨rfl, hrec hp hbuf₁⟩
  | REL8 value | REL32 value =>
      cases hp
      obtain ⟨rel, -, h⟩ := bind_ok.mp h
      simp only at h
      split at h
      · cases h
      · cases h
        exact ⟨rfl, hpush rfl⟩
  | INSTR =>
      obtain ⟨J, hJ, hp, h⟩ := bind_both hp h
      obtain ⟨code, rfl, hcopy⟩ := placeCopy_copies (hw.size J (hI J (deref_ok.mp hJ))).2 hp
      rw [hcopy] at h
      cases h
      exact ⟨rfl, rfl⟩
  | INSTR_BYTES =>
      obtain ⟨J, hJ, hp, h⟩ := bind_both hp h
      cases hp
      cases h
      exact ⟨rfl, hpush (ORIG_length B J)⟩
  | BREAK optimize =>
      obtain ⟨J, hJ, hp, h⟩ := bind_both hp h
      obtain ⟨r, hr, h⟩ := bind_ok.mp h
      cases h
      exact ⟨rfl, buildBreak_fills hw hp hr⟩
  | TAKE =>
      cases hp
      obtain ⟨J, -, h⟩ := bind_ok.mp h
      split at h
      · cases h
      · obtain ⟨_, -, h⟩ := bind_ok.mp h
        cases h
        exact ⟨rfl, hpush rfl⟩
  | BATCH stop => cases hp

/-- The pass for the labels ends a template where the layout does. -/
theorem buildLabelSet_follows (hw : WellFormed B) {fuel : Nat} {T : Trampoline} {I : Option Nat} {last : Bool}
    (hI : ∀ k ∈ I, k < B.count) (hp : placeCode B limit fuel T I last a.addr = .ok e)
    (h : buildLabelSet B fuel T I last a = .ok a') : a'.addr = e := by
  induction fuel generalizing T last a a' e with
  | zero => cases h
  | succ fuel ih =>
      unfold placeCode at hp
      unfold buildLabelSet at h
      generalize T.entries = entries at hp h
      induction entries generalizing a with
      | nil =>
          cases hp
          cases h
          rfl
      | cons entry entries ihe =>
          obtain ⟨pos, hpos, hrest⟩ := bind_ok.mp hp
          obtain ⟨⟨I₁, a₁⟩, hentry, hlabels⟩ := bind_ok.mp h
          obtain ⟨rfl, rfl⟩ := entryLabels_follows hw hI ih hpos hentry
          exact ihe hrest hlabels

/-- And so does the pass for the bytes. -/
theorem buildBytes_follows (hw : WellFormed B) {fuel : Nat} {T : Trampoline} {I : Option Nat} {last : Bool}
    (hI : ∀ k ∈ I, k < B.count) (hp : placeCode B (base + buf.max) fuel T I last (base + buf.size) = .ok e)
    (h : buildBytes B base breaks labels fuel T I last buf = .ok buf') : e = base + buf'.size := by
  induction fuel generalizing T last buf buf' e with
  | zero => cases h
  | succ fuel ih =>
      unfold placeCode at hp
      unfold buildBytes at h
      generalize T.entries = entries at hp h
      induction entries generalizing buf with
      | nil =>
          cases hp
          cases h
          rfl
      | cons entry entries ihe =>
          obtain ⟨pos, hpos, hrest⟩ := bind_ok.mp hp
          obtain ⟨⟨I₁, buf₁⟩, hentry, hbytes⟩ := bind_ok.mp h
          obtain ⟨rfl, rfl⟩ := entryBytes_follows hw hI ih hpos hentry
          have hmax := (entryBytes_grows (fun hb => buildBytes_grows hb) hentry).max
          rw [← hmax] at hrest
          exact ihe hrest hbytes

end

end E9Patch
