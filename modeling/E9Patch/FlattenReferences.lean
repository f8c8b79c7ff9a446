import E9Patch.FlattenLabels

/-!
The references of a trampoline. A data entry for a label and a relative one are noted where the pass for the bytes comes
by them, with the number of bytes that they have. What is written there leads to the address of the label, but for an
`int8`, `int16` or `int32` that has no room for it: its upper bytes are cut without a check.
-/

namespace E9Patch
open Bytes Binary Fallible

/-! ### References -/

/-- An entry that uses a label: the displacement to it from the end of the entry, or its address. -/
structure Reference where
  rel : Bool
  size : Nat
  pos : Int
  I : Option Nat
  label : String
  deriving DecidableEq, Repr

/-- A reference is noted with its own address. -/
def noteReference (base : Int) : Entry → Option Nat → Buffer → Except Fault (List Reference)
  | .INT8 (.label label), I, buf => .ok [⟨false, 1, base + buf.size, I, label⟩]
  | .INT16 (.label label), I, buf => .ok [⟨false, 2, base + buf.size, I, label⟩]
  | .INT32 (.label label), I, buf => .ok [⟨false, 4, base + buf.size, I, label⟩]
  | .INT64 (.label label), I, buf => .ok [⟨false, 8, base + buf.size, I, label⟩]
  | .REL8 (.label label), I, buf => .ok [⟨true, 1, base + buf.size, I, label⟩]
  | .REL32 (.label label), I, buf => .ok [⟨true, 4, base + buf.size, I, label⟩]
  | _, _, _ => .ok []

/-- The pass for the bytes over a member of a batch, with the references that it comes by. -/
def memberReferences (B : Binary) (base : Int) (breaks : BreakInfo) (labels : LabelSet) (s : Buffer × List Reference)
    (I : Nat) (last : Bool) : Except Fault (Option (Buffer × List Reference)) := do
  let refs ← ownMet B (noteReference base) base breaks labels s.1 I last
  match ← memberBytes B (buildBytes B base breaks labels MACRO_DEPTH_MAX) base s.1 I last with
  | none => .ok none
  | some buf => .ok (some (buf, refs ++ s.2))

/-- The references that the pass for the bytes comes by in a trampoline. -/
def references (B : Binary) (base : Int) (breaks : BreakInfo) (labels : LabelSet) (T : Trampoline) (I : Option Nat)
    (buf : Buffer) : Except Fault (List Reference) :=
  match T with
  | .batch stop => do
    match ← batchLoop B stop (memberReferences B base breaks labels) (B.count + 1) (buf, []) none I with
    | none => .error .null
    | some (s, _, _) => .ok s.2
  | T => met B (noteReference base) base breaks labels (MACRO_DEPTH_MAX + 1) T I true buf

namespace Reference

/-- The address of the label that is meant: that of a label of the instruction itself, or a recorded one. -/
def Names (B : Binary) (labels : LabelSet) (r : Reference) (p : Int) : Prop :=
  match r.I with
  | none => r.label = ".Lconfig" ∧ p = B.config
  | some J => getBuiltinLabelAddress B J r.label = .ok p ∧ p ≠ INTPTR_MIN ∨
      getBuiltinLabelAddress B J r.label = .ok INTPTR_MIN ∧ (((B.Is J).addr, r.label), p) ∈ labels

/-- Where the bytes of a reference lead, as a displacement or as an address of either sign. -/
def LeadsTo (base : Int) (data : List UInt8) (r : Reference) (p : Int) : Prop :=
  let word := wordLE r.size data (r.pos - base).toNat
  if r.rel then r.pos + r.size + signedLE r.size word = p
  else word = p ∨ signedLE r.size word = p

/-- An address has room in the bytes of the reference. -/
def Fits (r : Reference) (p : Int) : Prop := r.rel = false → -2 ^ (8 * r.size - 1) ≤ p ∧ p < 2 ^ (8 * r.size)

/-- What is looked up for a reference is written at its place; a displacement is in range. -/
structure Written (B : Binary) (base : Int) (labels : LabelSet) (data : List UInt8) (r : Reference) (v : Int) :
    Prop where
  size : 0 < r.size
  lookup : lookupLabel B r.label r.I r.pos labels = .ok v
  range : r.rel = true → -2 ^ (8 * r.size - 1) ≤ v - r.size ∧ v - r.size < 2 ^ (8 * r.size - 1)
  bytes : ∃ pre post, base + pre.length = r.pos ∧
    data = pre ++ bytesLE r.size (if r.rel then v - r.size else v + r.pos) ++ post

end Reference

theorem lookupLabel_names {B : Binary} {base : Int} {labels : LabelSet} {r : Reference} {v : Int}
    (h : lookupLabel B r.label r.I base labels = .ok v) : r.Names B labels (base + v) := by
  unfold lookupLabel at h
  unfold Reference.Names
  split at h
  · cases h
  cases hI : r.I with
  | none =>
      simp only [hI] at h
      split at h
      · rename_i hconfig
        cases h
        exact ⟨hconfig, by omega⟩
      · cases h
  | some J =>
      simp only [hI] at h
      obtain ⟨target, htarget, h⟩ := bind_ok.mp h
      by_cases hne : target = INTPTR_MIN
      · subst hne
        rw [if_neg (fun hne => hne rfl)] at h
        split at h
        · cases h
        · rename_i p hp
          cases h
          refine Or.inr ⟨htarget, ?_⟩
          obtain ⟨⟨l, q⟩, hl, rfl⟩ := Option.map_eq_some_iff.mp hp
          have hkey : l = ((B.Is J).addr, r.label) := by
            have := List.find?_some hl
            exact of_decide_eq_true this
          subst hkey
          have hmem := List.mem_of_find?_eq_some hl
          rwa [show base + (q - base) = q by omega]
      · rw [if_pos hne] at h
        cases h
        rw [show base + (target - base) = target by omega]
        exact Or.inl ⟨htarget, hne⟩

/-- A reference that is written leads to its label if there is room for the address. -/
theorem Reference.Written.leadsTo {B : Binary} {base : Int} {labels : LabelSet} {data : List UInt8} {r : Reference}
    {v : Int} (h : r.Written B base labels data v) :
    r.Names B labels (r.pos + v) ∧ (r.LeadsTo base data (r.pos + v) ↔ r.Fits (r.pos + v)) := by
  refine ⟨lookupLabel_names h.lookup, ?_⟩
  obtain ⟨pre, post, hpos, rfl⟩ := h.bytes
  have hindex : (r.pos - base).toNat = pre.length + 0 := by omega
  unfold Reference.LeadsTo Reference.Fits
  rw [hindex, List.append_assoc, wordLE_append_right, wordLE_bytesLE]
  dsimp only
  rw [signedLE_emod]
  cases hrel : r.rel with
  | true =>
      obtain ⟨h1, h2⟩ := h.range hrel
      simp only [if_true, Bool.true_eq_false, false_imp_iff, iff_true]
      rw [signedLE_eq h.size h1 h2]
      omega
  | false =>
      simp only [Bool.false_eq_true, if_false, forall_const]
      rw [Int.add_comm v r.pos]
      exact signedLE_or_emod h.size _

/-! ### What is written -/

/-- Every reference of a list is written. -/
def AllWritten (B : Binary) (base : Int) (labels : LabelSet) (buf : Buffer) (refs : List Reference) : Prop :=
  ∀ r ∈ refs, ∃ v, r.Written B base labels buf.data v

section
variable {B : Binary} {base : Int} {breaks : BreakInfo} {labels : LabelSet} {buf buf' : Buffer}
  {refs more : List Reference}

/-- It stays written when more is pushed. -/
theorem AllWritten.grows (h : AllWritten B base labels buf refs) (hgrows : buf.Grows buf') :
    AllWritten B base labels buf' refs := by
  obtain ⟨code, rfl⟩ := hgrows
  intro r hr
  obtain ⟨v, hsize, hlookup, hrange, pre, post, hpos, hdata⟩ := h r hr
  refine ⟨v, hsize, hlookup, hrange, pre, post ++ code, hpos, ?_⟩
  show buf.data ++ code = _
  rw [hdata, List.append_assoc]

theorem AllWritten.append (h : AllWritten B base labels buf more) (h' : AllWritten B base labels buf refs) :
    AllWritten B base labels buf (more ++ refs) := fun r hr =>
  (List.mem_append.mp hr).elim (h r) (h' r)

theorem AllWritten.nil : AllWritten B base labels buf [] := fun _ hr => nomatch hr

/-- What an entry for a label pushes. -/
theorem written_push (rel : Bool) {size : Nat} {I : Option Nat} {label : String} {v : Int} (hsize : 0 < size)
    (hlookup : lookupLabel B label I (base + buf.size) labels = .ok v)
    (hrange : rel = true → -2 ^ (8 * size - 1) ≤ v - size ∧ v - size < 2 ^ (8 * size - 1)) :
    AllWritten B base labels (buf.push (bytesLE size (if rel then v - size else v + (base + buf.size))))
      [⟨rel, size, base + buf.size, I, label⟩] := by
  intro r hr
  rw [List.mem_singleton.mp hr]
  exact ⟨v, hsize, hlookup, hrange, buf.data, [], rfl, (List.append_nil _).symm⟩

theorem entryValue_label {I : Option Nat} {addr val : Int} {label : String}
    (h : entryValue B I addr labels (.label label) = .ok val) :
    ∃ v, lookupLabel B label I addr labels = .ok v ∧ val = v + addr := by
  obtain ⟨v, hv, h⟩ := bind_ok.mp h
  exact ⟨v, hv, (Except.ok.inj h).symm⟩

/-- What is noted of a value: a label, and no number. -/
def labelReferences (rel : Bool) (size : Nat) (addr : Int) (I : Option Nat) : Value → List Reference
  | .label label => [⟨rel, size, addr, I, label⟩]
  | .uint64 _ => []

theorem value_written {size : Nat} {I : Option Nat} {value : Value} {val : Int} (hsize : 0 < size)
    (h : entryValue B I (base + buf.size) labels value = .ok val) :
    AllWritten B base labels (buf.push (bytesLE size val)) (labelReferences false size (base + buf.size) I value) := by
  cases value with
  | uint64 n => exact .nil
  | label label =>
      obtain ⟨v, hv, rfl⟩ := entryValue_label h
      exact written_push false hsize hv nofun

theorem rel_written {size : Nat} {I : Option Nat} {value : Value} {v : Int} (hsize : 0 < size)
    (h : entryRel B I (base + buf.size) labels value = .ok v)
    (hrange : -2 ^ (8 * size - 1) ≤ v - size ∧ v - size < 2 ^ (8 * size - 1)) :
    AllWritten B base labels (buf.push (bytesLE size (v - size)))
      (labelReferences true size (base + buf.size) I value) := by
  cases value with
  | uint64 n => exact .nil
  | label label => exact written_push true hsize h fun _ => hrange

theorem entryMet_written {rec : Trampoline → Option Nat → Bool → Buffer → Except Fault (List Reference)}
    {recB : Trampoline → Option Nat → Bool → Buffer → Except Fault Buffer} {last isLast : Bool} {entry : Entry}
    {I I' : Option Nat} (hrec : ∀ {T last buf'}, recB T I last buf = .ok buf' →
      ∃ refs, rec T I last buf = .ok refs ∧ AllWritten B base labels buf' refs)
    (h : entryBytes B recB base last breaks labels entry isLast I buf = .ok (I', buf')) :
    ∃ refs, entryMet B (noteReference base) rec last entry I buf = .ok refs ∧ AllWritten B base labels buf' refs := by
  cases entry with
  | DEBUG | BYTES bytes | ZEROES length | LABEL label | INSTR | INSTR_BYTES | BREAK optimize | TAKE | BATCH stop =>
      exact ⟨[], rfl, .nil⟩
  | INT8 value =>
      obtain ⟨val, hval, h⟩ := bind_ok.mp h
      cases h
      exact ⟨labelReferences false 1 (base + buf.size) I value, by cases value <;> rfl,
        value_written (by decide) hval⟩
  | INT16 value =>
      obtain ⟨val, hval, h⟩ := bind_ok.mp h
      cases h
      exact ⟨labelReferences false 2 (base + buf.size) I value, by cases value <;> rfl,
        le16_eq val ▸ value_written (by decide) hval⟩
  | INT32 value =>
      obtain ⟨val, hval, h⟩ := bind_ok.mp h
      cases h
      exact ⟨labelReferences false 4 (base + buf.size) I value, by cases value <;> rfl,
        le32_eq val ▸ value_written (by decide) hval⟩
  | INT64 value =>
      obtain ⟨val, hval, h⟩ := bind_ok.mp h
      cases h
      exact ⟨labelReferences false 8 (base + buf.size) I value, by cases value <;> rfl,
        le64_eq val ▸ value_written (by decide) hval⟩
  | REL8 value =>
      obtain ⟨v, hv, h⟩ := bind_ok.mp h
      dsimp only at h
      split at h
      · cases h
      · rename_i hrange
        cases h
        exact ⟨labelReferences true 1 (base + buf.size) I value, by cases value <;> rfl,
          rel_written (by decide) hv (by simpa using by omega)⟩
  | REL32 value =>
      obtain ⟨v, hv, h⟩ := bind_ok.mp h
      dsimp only at h
      split at h
      · cases h
      · rename_i hrange
        cases h
        exact ⟨labelReferences true 4 (base + buf.size) I value, by cases value <;> rfl,
          le32_eq (v - 4) ▸ rel_written (by decide) hv (by simpa using by omega)⟩
  | MACRO name =>
      obtain ⟨J, hJ, h⟩ := bind_ok.mp h
      split at h
      · cases h
      · rename_i U hU
        obtain ⟨buf₁, hbuf₁, h⟩ := bind_ok.mp h
        cases h
        obtain ⟨refs, hrefs, hw⟩ := hrec hbuf₁
        exact ⟨refs, bind_ok.mpr ⟨J, hJ, bind_ok.mpr ⟨U, by rw [hU]; rfl, hrefs⟩⟩, hw⟩

/-- The references of a template are noted, and they are written. -/
theorem met_written {fuel : Nat} {T : Trampoline} {I : Option Nat} {last : Bool}
    (h : buildBytes B base breaks labels fuel T I last buf = .ok buf') :
    ∃ refs, met B (noteReference base) base breaks labels fuel T I last buf = .ok refs ∧
      AllWritten B base labels buf' refs := by
  induction fuel generalizing T I last buf buf' with
  | zero => cases h
  | succ fuel ih =>
      unfold buildBytes at h
      unfold met
      have hentries : ∀ (entries : List Entry) (I : Option Nat) (buf : Buffer),
          entriesBytes B (buildBytes B base breaks labels fuel) base last breaks labels entries I buf = .ok buf' →
          buf.Grows buf' ∧ ∃ refs, entriesMet B (noteReference base) (buildBytes B base breaks labels fuel)
            (met B (noteReference base) base breaks labels fuel) base last breaks labels entries I buf = .ok refs ∧
            AllWritten B base labels buf' refs := by
        intro entries
        induction entries with
        | nil =>
            intro I buf h
            cases h
            exact ⟨.refl _, [], rfl, .nil⟩
        | cons entry entries ihe =>
            intro I buf h
            obtain ⟨⟨I₁, buf₁⟩, hentry, h⟩ := bind_ok.mp h
            obtain ⟨refs, hrefs, hw⟩ := entryMet_written (fun hb => ih hb) hentry
            obtain ⟨hgrows, more, hmore, hw'⟩ := ihe _ _ h
            refine ⟨(entryBytes_grows (fun hb => buildBytes_grows hb) hentry).trans hgrows, more ++ refs, ?_,
              hw'.append (hw.grows hgrows)⟩
            exact bind_ok.mpr ⟨refs, hrefs, bind_ok.mpr ⟨_, hentry, bind_ok.mpr ⟨more, hmore, rfl⟩⟩⟩
      exact (hentries _ _ _ h).2

theorem memberReferences_written {K : Nat} {last : Bool} (hw : AllWritten B base labels buf refs)
    (h : memberBytes B (buildBytes B base breaks labels MACRO_DEPTH_MAX) base buf K last = .ok (some buf')) :
    ∃ more, memberReferences B base breaks labels (buf, refs) K last = .ok (some (buf', more ++ refs)) ∧
      AllWritten B base labels buf' (more ++ refs) := by
  have hgrows := memberBytes_grows (fun hT => buildBytes_grows hT) h
  obtain ⟨more, hmore, hw'⟩ : ∃ more, ownMet B (noteReference base) base breaks labels buf K last = .ok more ∧
      AllWritten B base labels buf' more := by
    unfold ownMet
    unfold memberBytes at h
    cases hT : (B.Is K).T with
    | none => exact ⟨[], rfl, .nil⟩
    | some T =>
        simp only [hT] at h
        obtain ⟨buf₁, hbuf₁, h⟩ := bind_ok.mp h
        cases h
        exact met_written hbuf₁
  refine ⟨more, ?_, hw'.append (hw.grows hgrows)⟩
  unfold memberReferences
  rw [hmore, h]
  rfl

/-- The references of the members of a batch. -/
theorem batchReferences_written {stop : Int} {fuel : Nat} {I J J₁ I₁ : Option Nat}
    (hw : AllWritten B base labels buf refs)
    (h : batchLoop B stop (memberBytes B (buildBytes B base breaks labels MACRO_DEPTH_MAX) base) fuel buf J I =
      .ok (some (buf', J₁, I₁))) :
    ∃ refs', batchLoop B stop (memberReferences B base breaks labels) fuel (buf, refs) J I =
        .ok (some ((buf', refs'), J₁, I₁)) ∧ AllWritten B base labels buf' refs' := by
  induction fuel generalizing buf refs J I with
  | zero =>
      cases h
      exact ⟨refs, rfl, hw⟩
  | succ fuel ih =>
      unfold batchLoop at h ⊢
      cases I with
      | none =>
          cases h
          exact ⟨refs, rfl, hw⟩
      | some K =>
          simp only at h ⊢
          by_cases hstop : (B.Is K).addr > stop
          · rw [if_pos hstop] at h ⊢
            cases h
            exact ⟨refs, rfl, hw⟩
          · rw [if_neg hstop] at h ⊢
            obtain ⟨ob, hob, h⟩ := bind_ok.mp h
            cases ob with
            | none => cases h
            | some buf₁ =>
            obtain ⟨more, hmore, hw'⟩ := memberReferences_written hw hob
            obtain ⟨refs', hrun, hw''⟩ := ih hw' h
            exact ⟨refs', bind_ok.mpr ⟨_, hmore, hrun⟩, hw''⟩

/-- The references of a trampoline are noted, and they are written. -/
theorem references_written {T : Trampoline} {I : Option Nat} {size : Nat}
    (h : buildBytes B base breaks labels (MACRO_DEPTH_MAX + 1) T I true ⟨[], size⟩ = .ok buf) :
    ∃ refs, references B base breaks labels T I ⟨[], size⟩ = .ok refs ∧ AllWritten B base labels buf refs := by
  cases T with
  | batch stop =>
      obtain ⟨buf₁, J, K, hloop, htail⟩ := buildBytes_batch h
      obtain ⟨refs, hrun, hw⟩ := batchReferences_written .nil hloop
      refine ⟨refs, bind_ok.mpr ⟨_, hrun, rfl⟩, ?_⟩
      split at htail
      · obtain ⟨r, hr, rfl⟩ := htail
        exact hw.grows (buildBreak_grows hr)
      · rw [htail]
        exact hw
  | evictee | user T => exact met_written h

end

/-- **Labels.** In a trampoline that has a layout, each label is recorded once, at the address where the pass for the
bytes comes by it, and each break at the address where that pass begins the next instruction of the batch; and the
bytes that it writes for a reference lead to the label that is named just when the reference has room for it. -/
theorem labels_agree {B : Binary} (hB : Reachable B) {T : Trampoline} {I : Option Nat} {base e : Int} {size : Nat}
    {a : LabelPass} {buf : Buffer} (hI : ∀ k ∈ I, k < B.count) (hp : layout B (base + size) T I base = .ok e)
    (hl : buildLabelSet B (MACRO_DEPTH_MAX + 1) T I true ⟨base, [], []⟩ = .ok a)
    (hb : buildBytes B base a.breaks a.labels (MACRO_DEPTH_MAX + 1) T I true ⟨[], size⟩ = .ok buf) :
    marks B base a.breaks a.labels T I ⟨[], size⟩ = .ok ⟨a.labels, a.breaks⟩ ∧ a.labels.Distinct ∧
      ∃ refs, references B base a.breaks a.labels T I ⟨[], size⟩ = .ok refs ∧
        ∀ r ∈ refs, ∃ p, r.Names B a.labels p ∧ (r.LeadsTo base buf.data p ↔ r.Fits p) := by
  obtain ⟨hmarks, hdistinct⟩ := marks_recorded hB.invariant.wellFormed hI hp hl hb
  obtain ⟨refs, hrefs, hw⟩ := references_written hb
  refine ⟨hmarks, hdistinct, refs, hrefs, fun r hr => ?_⟩
  obtain ⟨v, hv⟩ := hw r hr
  exact ⟨_, hv.leadsTo⟩

/-! ### A call that cannot be reached from below -/

/-- `callq` to where a jump from below the instruction does not reach. -/
def farRun : Except Fault Binary := do
  let B ← parseBinary { sampleFile with bytes := byteAt [0x90, 0xe8, 0x00, 0xff, 0xff, 0x7f], pic := false } .ELF_EXE
    defaultOptions none
  [.instruction [0x400001] [5] [1]].foldlM parseMessage B

def farBinary : Binary := farRun.toOption.getD (newBinary sampleFile .ELF_EXE defaultOptions)

theorem far_reachable : Reachable farBinary := by
  have h : farRun = .ok farBinary := ok_getD (by decide +kernel)
  obtain ⟨B₀, h₀, h⟩ := bind_ok.mp h
  exact reachable_of_messages h₀ h

def farTemplate : Trampoline := .user ⟨0, [.INSTR, .LABEL ".Lend", .BREAK false]⟩

/-- The same with a jump over the copy, and the address of the instruction. -/
def nearTemplate : Trampoline :=
  .user ⟨1, [.REL8 (.label ".Lend"), .INSTR, .LABEL ".Lend", .INT32 (.label ".Linstr"), .BREAK false]⟩

def nearLabels : LabelSet := [((0x400001, ".Lend"), 0x40010b)]

def nearBytes : Buffer :=
  (buildBytes farBinary 0x400100 [] nearLabels (MACRO_DEPTH_MAX + 1) nearTemplate (some 0) true
    ⟨[], 64⟩).toOption.getD ⟨[], 0⟩

/-- Above the instruction the template has a layout. -/
theorem near_labels_agree :
    marks farBinary 0x400100 [] nearLabels nearTemplate (some 0) ⟨[], 64⟩ = .ok ⟨nearLabels, []⟩ ∧
      nearLabels.Distinct ∧
      ∃ refs, references farBinary 0x400100 [] nearLabels nearTemplate (some 0) ⟨[], 64⟩ = .ok refs ∧
        ∀ r ∈ refs, ∃ p, r.Names farBinary nearLabels p ∧ (r.LeadsTo 0x400100 nearBytes.data p ↔ r.Fits p) := by
  have hI : ∀ k ∈ some 0, k < farBinary.count := by
    intro k hk
    cases hk
    decide +kernel
  have hlabels : buildLabelSet farBinary (MACRO_DEPTH_MAX + 1) nearTemplate (some 0) true ⟨0x400100, [], []⟩ =
      .ok ⟨0x400114, [], nearLabels⟩ := by
    decide +kernel
  have hbytes : buildBytes farBinary 0x400100 [] nearLabels (MACRO_DEPTH_MAX + 1) nearTemplate (some 0) true
      ⟨[], 64⟩ = .ok nearBytes := ok_getD (by decide +kernel)
  exact labels_agree far_reachable hI (e := 0x400114) (by decide +kernel) hlabels hbytes

/-- Below it the copy of the call fails. The pass for the labels counts -1 for it, and the pass for the bytes
has pushed the return address. -/
theorem far_labels_differ : Reachable farBinary ∧
    buildLabelSet farBinary (MACRO_DEPTH_MAX + 1) farTemplate (some 0) true ⟨0x3f0000, [], []⟩ =
      .ok ⟨0x3f0004, [], [((0x400001, ".Lend"), 0x3effff)]⟩ ∧
    (buildBytes farBinary 0x3f0000 [] [((0x400001, ".Lend"), 0x3effff)] (MACRO_DEPTH_MAX + 1) farTemplate (some 0)
      true ⟨[], 64⟩).toOption.map (·.size) = some 10 ∧
    marks farBinary 0x3f0000 [] [((0x400001, ".Lend"), 0x3effff)] farTemplate (some 0) ⟨[], 64⟩ =
      .ok ⟨[((0x400001, ".Lend"), 0x3f0005)], []⟩ :=
  ⟨far_reachable, by decide +kernel, by decide +kernel, by decide +kernel⟩

end E9Patch
