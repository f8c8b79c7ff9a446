import E9Patch.FlattenLabels

/-!
The bounds of a trampoline (`e9trampoline.cpp`) against the pass for the bytes. `getTrampolineBounds` counts the
offset of every `rel8` and `rel32` entry by itself, and where it counts right, an entry point within the bounds
lets each of them reach a target that is known. What it counts for a member of a batch that has a template is the
size up to the end of the member, and that is added to the size before it.
-/

namespace E9Patch
open Bytes Binary Fallible

/-! ### The displacements that the pass for the bytes comes by -/

/-- A `rel8` or `rel32` entry: its width and value, the instruction it is met for, and its address. -/
structure Rel where
  width : Nat
  value : Value
  I : Option Nat
  addr : Int
  deriving DecidableEq, Repr

/-- The members of a batch. -/
def batchRels (B : Binary) (recB : Trampoline → Option Nat → Bool → Buffer → Except Fault Buffer)
    (rec : Trampoline → Option Nat → Bool → Buffer → List Rel) (base stop : Int) :
    Nat → Buffer → Option Nat → List Rel
  | 0, _, _ => []
  | _ + 1, _, none => []
  | fuel + 1, buf, some I =>
    if (B.Is I).addr > stop then []
    else
      (match (B.Is I).T with
        | some T => rec T (some I) ((B.Is I).addr = stop) buf
        | none => []) ++
      (match memberBytes B recB base buf I ((B.Is I).addr = stop) with
        | .ok (some buf) => batchRels B recB rec base stop fuel buf (B.next I)
        | _ => [])

def entryRels (B : Binary) (recB : Trampoline → Option Nat → Bool → Buffer → Except Fault Buffer)
    (rec : Trampoline → Option Nat → Bool → Buffer → List Rel) (base : Int) (last : Bool) (entry : Entry)
    (I : Option Nat) (buf : Buffer) : List Rel :=
  match entry with
  | .REL8 value => [⟨1, value, I, base + buf.size⟩]
  | .REL32 value => [⟨4, value, I, base + buf.size⟩]
  | .MACRO name =>
    match I.bind fun J => expandMacro B (B.Is J).metadata name with
    | some U => rec U I last buf
    | none => []
  | .BATCH stop => batchRels B recB rec base stop (B.count + 1) buf I
  | _ => []

def entriesRels (B : Binary) (recB : Trampoline → Option Nat → Bool → Buffer → Except Fault Buffer)
    (rec : Trampoline → Option Nat → Bool → Buffer → List Rel) (base : Int) (last : Bool) (breaks : BreakInfo)
    (labels : LabelSet) : List Entry → Option Nat → Buffer → List Rel
  | [], _, _ => []
  | entry :: entries, I, buf =>
    entryRels B recB rec base last entry I buf ++
      (match entryBytes B recB base last breaks labels entry entries.isEmpty I buf with
        | .ok r => entriesRels B recB rec base last breaks labels entries r.1 r.2
        | .error _ => [])

/-- The `rel8` and `rel32` entries that `buildBytes` comes by, up to one that it fails at. -/
def relsMet (B : Binary) (base : Int) (breaks : BreakInfo) (labels : LabelSet) :
    Nat → Trampoline → Option Nat → Bool → Buffer → List Rel
  | 0, _, _, _, _ => []
  | fuel + 1, T, I, last, buf =>
    entriesRels B (buildBytes B base breaks labels fuel) (relsMet B base breaks labels fuel) base last breaks labels
      T.entries I buf

def Rel.min (r : Rel) : Int := -2 ^ (8 * r.width - 1)
def Rel.max (r : Rel) : Int := 2 ^ (8 * r.width - 1) - 1

/-- The displacement fits the entry. -/
def Rel.InRange (B : Binary) (labels : LabelSet) (r : Rel) : Prop :=
  ∀ rel, entryRel B r.I r.addr labels r.value = .ok rel → r.min ≤ rel - r.width ∧ rel - r.width ≤ r.max

def builtinLabels : List String := [".Lbreak", ".Lconfig", ".Linstr", ".Ltake"]

/-- The value is an address or a builtin label. -/
def Value.known : Value → Bool
  | .label name => decide (name ∈ builtinLabels)
  | .uint64 _ => true

/-- Whether a template has an entry whose target is known. -/
def entryUses (B : Binary) (rec : Trampoline → Nat → Bool) (I : Nat) : Entry → Bool
  | .REL8 value => value.known
  | .REL32 value => value.known
  | .MACRO name =>
    match expandMacro B (B.Is I).metadata name with
    | some U => rec U I
    | none => false
  | _ => false

def usesKnown (B : Binary) : Nat → Trampoline → Nat → Bool
  | 0, _, _ => false
  | fuel + 1, T, I => T.entries.any (entryUses B (usesKnown B fuel) I)

/-- No entry with a known target stands behind a member that has a template and is not at the start of the
trampoline; `off` tells whether there was such a member. -/
def CountedMembers (B : Binary) (limit base stop : Int) : Nat → Bool → Int → Option Nat → Prop
  | 0, _, _, _ => True
  | _ + 1, _, _, none => True
  | fuel + 1, off, pos, some I =>
    (B.Is I).addr ≤ stop →
      (off = true → ∀ T ∈ (B.Is I).T, usesKnown B MACRO_DEPTH_MAX T I = false) ∧
      ∀ e, placeMember B limit pos I ((B.Is I).addr = stop) = .ok (some e) →
        CountedMembers B limit base stop fuel (off || ((B.Is I).T.isSome && decide (pos ≠ base))) e (B.next I)

/-- The same for a trampoline; only a batch has members. -/
def CountedRight (B : Binary) (limit base : Int) (T : Trampoline) (I : Option Nat) : Prop :=
  match T with
  | .batch stop => CountedMembers B limit base stop (B.count + 1) false base I
  | _ => True

/-- The error of an entry that does not reach its target. -/
def relError : Fault → Prop
  | .error message =>
    message = "failed to build trampoline; rel8 value (%zd) is out-of-range (%d..%d)" ∨
      message = "failed to build trampoline; rel32 value (%zd) is out-of-range (%zd..%zd)"
  | _ => False

instance : DecidablePred relError := fun fault =>
  match fault with
  | .error _ => inferInstanceAs (Decidable (_ ∨ _))
  | .assertion => inferInstanceAs (Decidable False)
  | .null => inferInstanceAs (Decidable False)
  | .overflow => inferInstanceAs (Decidable False)

/-! ### What the bounds ask of an entry -/

section
variable {B : Binary} {base : Int} {b : Bounds} {labels : LabelSet}

/-- The bounds are not wider than what the entry allows. -/
def Rel.Restricts (B : Binary) (base : Int) (b : Bounds) (r : Rel) : Prop :=
  ∀ t, relAddress B r.I r.value = .ok t → t ≠ INTPTR_MIN →
    signed64 (t - (r.addr + r.width - base) + 1 + r.min) ≤ b.lb ∧
      b.ub ≤ signed64 (t - (r.addr + r.width - base) - 1 + r.max)

/-- The target is an address of 64 bits other than the one that means "none". -/
def Rel.Proper (B : Binary) (r : Rel) : Prop :=
  ∀ t, relAddress B r.I r.value = .ok t → INTPTR_MIN < t ∧ t ≤ INTPTR_MAX

theorem lookupLabel_builtin {label : String} (hk : label ∈ builtinLabels) {J : Nat} {here t : Int}
    (ht : getBuiltinLabelAddress B J label = .ok t) (hne : t ≠ INTPTR_MIN) :
    lookupLabel B label (some J) here labels = .ok (t - here) := by
  have hprefix : ¬ (label.toList[0]? ≠ some '.' ∧ label.toList[1]? ≠ some 'L') := by
    simp only [builtinLabels, List.mem_cons, List.not_mem_nil, or_false] at hk
    rcases hk with rfl | rfl | rfl | rfl <;> decide
  rw [lookupLabel, if_neg hprefix]
  exact bind_ok.mpr ⟨t, ht, if_pos hne⟩

/-- The interval arithmetic: what the bounds leave is within reach. -/
theorem reach_of_bounds {t s lo hi : Int} (hlo : -2 ^ 31 ≤ lo) (hhi : hi = -1 - lo) (hhi0 : 1 ≤ hi)
    (ht : INTPTR_MIN < t ∧ t ≤ INTPTR_MAX) (hs : 0 ≤ s) (hend : base + s ≤ 2 ^ 62) (hbase : INTPTR_MIN ≤ base)
    (hlb : signed64 (t - s + 1 + lo) ≤ base) (hub : base ≤ signed64 (t - s - 1 + hi)) :
    lo ≤ t - base - s ∧ t - base - s ≤ hi := by
  simp only [INTPTR_MIN, INTPTR_MAX, signed64] at ht hbase hlb hub
  omega

theorem signed64_sub {v x : Int} (h : -2 ^ 63 ≤ signed64 v - x) (h' : signed64 v - x < 2 ^ 63) :
    signed64 (v - x) = signed64 v - x := by
  unfold signed64 at h h' ⊢
  omega

/-- The entries that the bounds are about. -/
structure Rel.Formed (base limit : Int) (r : Rel) : Prop where
  width : r.width = 1 ∨ r.width = 4
  instr : r.I ≠ none
  behind : base ≤ r.addr
  inside : r.addr + r.width ≤ limit

theorem Rel.Formed.range {base limit : Int} {r : Rel} (h : r.Formed base limit) :
    -2 ^ 31 ≤ r.min ∧ r.max = -1 - r.min ∧ 1 ≤ r.max := by
  unfold Rel.min Rel.max
  rcases h.width with hw | hw <;> rw [hw] <;> decide

theorem inRange_of_restricts {r : Rel} {limit : Int} (h : r.Restricts B base b) (hf : r.Formed base limit)
    (hlimit : limit ≤ 2 ^ 62) (hbase : INTPTR_MIN ≤ base) (hlb : b.lb ≤ base) (hub : base ≤ b.ub)
    (hk : r.value.known = true) (hp : r.Proper B) : r.InRange B labels := by
  intro rel hrel
  obtain ⟨h1, h2, h3⟩ := hf.range
  have hbehind := hf.behind
  have hinside := hf.inside
  have hreach : ∀ t, relAddress B r.I r.value = .ok t →
      r.min ≤ t - r.addr - r.width ∧ t - r.addr - r.width ≤ r.max := by
    intro t ht
    have hproper := hp t ht
    obtain ⟨hlo, hhi⟩ := h t ht (by omega)
    have hr := reach_of_bounds (s := r.addr + r.width - base) h1 h2 h3 hproper (by omega) (by omega) hbase
      (Int.le_trans hlo hlb) (Int.le_trans hub hhi)
    omega
  obtain ⟨J, hJ⟩ := Option.ne_none_iff_exists'.1 hf.instr
  cases hv : r.value with
  | label name =>
      rw [hv] at hrel hk hreach
      rw [hJ] at hrel hreach
      have hmem : name ∈ builtinLabels := of_decide_eq_true hk
      cases ht : getBuiltinLabelAddress B J name with
      | error e =>
          have hlookup : lookupLabel B name (some J) r.addr labels = .ok rel := hrel
          unfold lookupLabel at hlookup
          split at hlookup
          · cases hlookup
          · obtain ⟨t, ht', -⟩ := bind_ok.mp hlookup
            rw [ht] at ht'
            cases ht'
      | ok t =>
          have hproper := hp t (by rw [hJ, hv]; exact ht)
          have hlookup : lookupLabel B name (some J) r.addr labels = .ok (t - r.addr) :=
            lookupLabel_builtin hmem ht (by omega)
          obtain rfl := Except.ok.inj (hlookup.symm.trans hrel)
          exact hreach t ht
  | uint64 value =>
      rw [hv] at hrel hreach
      have hr := hreach _ rfl
      obtain rfl := Except.ok.inj hrel
      have hw := hf.width
      rw [signed64_sub (by omega) (by omega)]
      exact hr

end

/-! ### The count of a template -/

section
variable {B : Binary} {base limit pos e : Int} {a a' : Int × Bounds} {I I' : Option Nat} {last isLast : Bool}
  {entry : Entry} {breaks : BreakInfo} {labels : LabelSet} {buf : Buffer}

theorem breakSize_counts (hw : WellFormed B) {J : Nat} {fallthrough optimize : Bool} {r : Int}
    (hp : placeBreak B limit J fallthrough optimize pos = .ok e) (h : breakSize B J fallthrough optimize = .ok r) :
    e = pos + r := by
  obtain ⟨s, hs, rfl⟩ := map_ok.mp h
  exact buildBreak_counts hw hp hs

theorem entryBounds_counts (hw : WellFormed B) {recP : Trampoline → Option Nat → Bool → Int → Except Fault Int}
    {recT : Trampoline → Option Nat → Bool → Int × Bounds → Except Fault (Int × Bounds)}
    (hI : ∀ k ∈ I, k < B.count)
    (hrec : ∀ {T last pos e a a'}, recP T I last pos = .ok e → recT T I last a = .ok a' → a'.1 = a.1 + (e - pos))
    (hp : placeEntry B recP limit last entry isLast I pos = .ok e)
    (h : entryBounds B recT last entry isLast I a = .ok (I', a')) : I' = I ∧ a'.1 = a.1 + (e - pos) := by
  cases entry with
  | LABEL label =>
      cases hp
      cases h
      exact ⟨rfl, by omega⟩
  | DEBUG | BYTES bytes | ZEROES length | INT8 value | INT16 value | INT32 value | INT64 value | TAKE =>
      cases hp
      cases h
      exact ⟨rfl, by dsimp only; omega⟩
  | REL8 value | REL32 value =>
      cases hp
      obtain ⟨t, -, h⟩ := bind_ok.mp h
      cases h
      exact ⟨rfl, by dsimp only; omega⟩
  | MACRO name =>
      obtain ⟨J, hJ, hp, h⟩ := bind_both hp h
      obtain ⟨U, hU, hp⟩ := bind_ok.mp hp
      rw [deref_ok.mp hU] at h
      obtain ⟨a₁, ha₁, h⟩ := bind_ok.mp h
      cases h
      exact ⟨rfl, hrec hp ha₁⟩
  | INSTR =>
      obtain ⟨J, hJ, hp, h⟩ := bind_both hp h
      obtain ⟨⟨hr, -⟩, rfl⟩ := placeCopy_ok.mp hp
      cases h
      refine ⟨rfl, ?_⟩
      dsimp only
      rw [(copySize_eq (hw.size J (hI J (deref_ok.mp hJ))).2 hr).2]
      omega
  | INSTR_BYTES =>
      obtain ⟨J, hJ, hp, h⟩ := bind_both hp h
      cases hp
      cases h
      exact ⟨rfl, by dsimp only; omega⟩
  | BREAK optimize =>
      obtain ⟨J, hJ, hp, h⟩ := bind_both hp h
      obtain ⟨r, hr, h⟩ := bind_ok.mp h
      cases h
      have := breakSize_counts hw hp hr
      exact ⟨rfl, by dsimp only; omega⟩
  | BATCH stop => cases hp

/-- Where every copy can be made at its place, the count is the size. -/
theorem trampolineBounds_counts (hw : WellFormed B) {fuel : Nat} {T : Trampoline} (hI : ∀ k ∈ I, k < B.count)
    (hp : placeCode B limit fuel T I last pos = .ok e) (h : trampolineBounds B fuel T I last a = .ok a') :
    a'.1 = a.1 + (e - pos) := by
  induction fuel generalizing T last pos e a a' with
  | zero => cases h
  | succ fuel ih =>
      unfold placeCode at hp
      unfold trampolineBounds at h
      generalize T.entries = entries at hp h
      induction entries generalizing pos a with
      | nil =>
          cases hp
          cases h
          omega
      | cons entry entries ihe =>
          obtain ⟨pos₁, hpos, hrest⟩ := bind_ok.mp hp
          obtain ⟨⟨I₁, a₁⟩, hentry, hbounds⟩ := bind_ok.mp h
          obtain ⟨rfl, hcount⟩ := entryBounds_counts hw hI ih hpos hentry
          have := ihe hrest hbounds
          omega

/-! ### The bounds get tighter -/

def Bounds.Within (b b' : Bounds) : Prop := b'.lb ≤ b.lb ∧ b.ub ≤ b'.ub

theorem Bounds.Within.refl (b : Bounds) : b.Within b := ⟨Int.le_refl _, Int.le_refl _⟩

theorem Bounds.Within.trans {b b' b'' : Bounds} (h : b.Within b') (h' : b'.Within b'') : b.Within b'' :=
  ⟨Int.le_trans h'.1 h.1, Int.le_trans h.2 h'.2⟩

theorem Bounds.restrict_within (b : Bounds) (addr size relMin relMax : Int) :
    (b.restrict addr size relMin relMax).Within b := by
  unfold Bounds.restrict
  split_ifs with h
  · exact .refl b
  · exact ⟨Int.le_max_left _ _, Int.min_le_left _ _⟩

theorem Rel.Restricts.within {b b' : Bounds} {r : Rel} (h : r.Restricts B base b') (hw : b.Within b') :
    r.Restricts B base b := by
  intro t ht hne
  obtain ⟨h1, h2⟩ := h t ht hne
  exact ⟨Int.le_trans h1 hw.1, Int.le_trans hw.2 h2⟩

theorem entryBounds_within {recT : Trampoline → Option Nat → Bool → Int × Bounds → Except Fault (Int × Bounds)}
    (hrec : ∀ {T I last a a'}, recT T I last a = .ok a' → a'.2.Within a.2)
    (h : entryBounds B recT last entry isLast I a = .ok (I', a')) : a'.2.Within a.2 := by
  cases entry with
  | DEBUG | BYTES bytes | ZEROES length | INT8 value | INT16 value | INT32 value | INT64 value | LABEL label | TAKE =>
      cases h
      exact .refl _
  | REL8 value | REL32 value =>
      obtain ⟨t, -, h⟩ := bind_ok.mp h
      cases h
      exact Bounds.restrict_within ..
  | MACRO name =>
      obtain ⟨J, -, h⟩ := bind_ok.mp h
      split at h
      · cases h
      · obtain ⟨a₁, ha₁, h⟩ := bind_ok.mp h
        cases h
        exact hrec ha₁
  | INSTR | INSTR_BYTES =>
      obtain ⟨J, -, h⟩ := bind_ok.mp h
      cases h
      exact .refl _
  | BREAK optimize =>
      obtain ⟨J, -, h⟩ := bind_ok.mp h
      obtain ⟨r, -, h⟩ := bind_ok.mp h
      cases h
      exact .refl _
  | BATCH stop =>
      obtain ⟨o, ho, h⟩ := bind_ok.mp h
      cases o with
      | none =>
          cases h
          exact .refl _
      | some o =>
          obtain ⟨a₁, J, K⟩ := o
          have hloop : a₁.2.Within a.2 := by
            refine batchLoop_keeps (P := fun b => b.2.Within a.2) (fun {b K last b'} hb hbody => ?_) (.refl _) ho
            split at hbody
            · obtain ⟨r, hr, hbody⟩ := bind_ok.mp hbody
              cases hbody
              exact (hrec hr).trans hb
            · cases hbody
              exact hb
          obtain ⟨J', -, h⟩ := bind_ok.mp h
          split at h
          · obtain ⟨r, -, h⟩ := bind_ok.mp h
            cases h
            exact hloop
          · cases h
            exact hloop

theorem entriesBounds_within {recT : Trampoline → Option Nat → Bool → Int × Bounds → Except Fault (Int × Bounds)}
    (hrec : ∀ {T I last a a'}, recT T I last a = .ok a' → a'.2.Within a.2) {entries : List Entry}
    (h : entriesBounds B recT last entries I a = .ok a') : a'.2.Within a.2 := by
  induction entries generalizing I a with
  | nil =>
      cases h
      exact .refl _
  | cons entry entries ih =>
      obtain ⟨⟨I₁, a₁⟩, hentry, hbounds⟩ := bind_ok.mp h
      exact (ih hbounds).trans (entryBounds_within hrec hentry)

theorem trampolineBounds_within {fuel : Nat} {T : Trampoline} (h : trampolineBounds B fuel T I last a = .ok a') :
    a'.2.Within a.2 := by
  induction fuel generalizing T I last a a' with
  | zero => cases h
  | succ fuel ih => exact entriesBounds_within ih h

/-! ### The entries of a template -/

theorem placeBreak_le {J : Nat} {fallthrough optimize : Bool}
    (h : placeBreak B limit J fallthrough optimize pos = .ok e) : pos ≤ e := by
  unfold placeBreak at h
  split at h
  · cases h
    exact Int.le_refl _
  split at h
  · cases h
    omega
  simp only at h
  split at h
  · cases h
    omega
  obtain ⟨r, hr, h⟩ := bind_ok.mp h
  obtain ⟨_, -, h⟩ := bind_ok.mp h
  cases h
  exact placeEpilogue_le hr

theorem placeEntry_le {recP : Trampoline → Option Nat → Bool → Int → Except Fault Int}
    (hrec : ∀ {T I last pos e}, recP T I last pos = .ok e → pos ≤ e)
    (h : placeEntry B recP limit last entry isLast I pos = .ok e) : pos ≤ e := by
  cases entry with
  | DEBUG =>
      cases h
      split <;> omega
  | BYTES bytes | ZEROES length | INT8 value | INT16 value | INT32 value | INT64 value | REL8 value | REL32 value
  | LABEL label | TAKE =>
      cases h
      omega
  | MACRO name =>
      obtain ⟨J, -, h⟩ := bind_ok.mp h
      obtain ⟨U, -, h⟩ := bind_ok.mp h
      exact hrec h
  | INSTR =>
      obtain ⟨J, -, h⟩ := bind_ok.mp h
      obtain ⟨-, rfl⟩ := placeCopy_ok.mp h
      omega
  | INSTR_BYTES =>
      obtain ⟨J, -, h⟩ := bind_ok.mp h
      cases h
      omega
  | BREAK optimize =>
      obtain ⟨J, -, h⟩ := bind_ok.mp h
      exact placeBreak_le h
  | BATCH stop => cases h

theorem placeEntries_le {recP : Trampoline → Option Nat → Bool → Int → Except Fault Int}
    (hrec : ∀ {T I last pos e}, recP T I last pos = .ok e → pos ≤ e) {entries : List Entry}
    (h : placeEntries B recP limit last entries I pos = .ok e) : pos ≤ e := by
  induction entries generalizing pos with
  | nil =>
      cases h
      exact Int.le_refl _
  | cons entry entries ih =>
      obtain ⟨pos₁, hpos, hrest⟩ := bind_ok.mp h
      exact Int.le_trans (placeEntry_le hrec hpos) (ih hrest)

theorem placeCode_le {fuel : Nat} {T : Trampoline} (h : placeCode B limit fuel T I last pos = .ok e) : pos ≤ e := by
  induction fuel generalizing T I last pos e with
  | zero => cases h
  | succ fuel ih => exact placeEntries_le ih h

theorem restricts_restrict {value : Value} {w : Nat} {size t : Int} {b : Bounds}
    (ht : relAddress B I value = .ok t) (hsize : size = buf.size) :
    Rel.Restricts B base (b.restrict t (size + w) (Rel.min ⟨w, value, I, 0⟩) (Rel.max ⟨w, value, I, 0⟩))
      ⟨w, value, I, base + buf.size⟩ := by
  intro t' ht' hne
  obtain rfl := Except.ok.inj (ht.symm.trans ht')
  have hs : base + buf.size + (w : Int) - base = size + w := by omega
  rw [Bounds.restrict, if_neg hne]
  dsimp only
  rw [hs]
  exact ⟨Int.le_max_right _ _, Int.min_le_right _ _⟩

theorem entryRels_restrict {recP : Trampoline → Option Nat → Bool → Int → Except Fault Int}
    {recT : Trampoline → Option Nat → Bool → Int × Bounds → Except Fault (Int × Bounds)}
    {recB : Trampoline → Option Nat → Bool → Buffer → Except Fault Buffer}
    {recR : Trampoline → Option Nat → Bool → Buffer → List Rel} (hI : I ≠ none)
    (hrec : ∀ {T e a a'}, recP T I last (base + buf.size) = .ok e → recT T I last a = .ok a' → a.1 = buf.size →
      ∀ r ∈ recR T I last buf, r.Restricts B base a'.2 ∧ r.Formed base e)
    (hp : placeEntry B recP limit last entry isLast I (base + buf.size) = .ok e)
    (h : entryBounds B recT last entry isLast I a = .ok (I', a')) (ha : a.1 = buf.size) :
    ∀ r ∈ entryRels B recB recR base last entry I buf, r.Restricts B base a'.2 ∧ r.Formed base e := by
  intro r hr
  cases entry with
  | DEBUG | BYTES bytes | ZEROES length | INT8 value | INT16 value | INT32 value | INT64 value | LABEL label | TAKE
  | INSTR | INSTR_BYTES | BREAK optimize =>
      cases hr
  | REL8 value =>
      cases hp
      obtain ⟨t, ht, h⟩ := bind_ok.mp h
      cases h
      obtain rfl := List.mem_singleton.1 hr
      exact ⟨restricts_restrict (w := 1) ht ha, .inl rfl, hI, by dsimp only; omega, by dsimp only; omega⟩
  | REL32 value =>
      cases hp
      obtain ⟨t, ht, h⟩ := bind_ok.mp h
      cases h
      obtain rfl := List.mem_singleton.1 hr
      exact ⟨restricts_restrict (w := 4) ht ha, .inr rfl, hI, by dsimp only; omega, by dsimp only; omega⟩
  | MACRO name =>
      obtain ⟨J, hJ, hp, h⟩ := bind_both hp h
      obtain ⟨U, hU, hp⟩ := bind_ok.mp hp
      rw [deref_ok.mp hU] at h
      obtain ⟨a₁, ha₁, h⟩ := bind_ok.mp h
      cases h
      obtain rfl := deref_ok.mp hJ
      have hbind : ((some J).bind fun J => expandMacro B (B.Is J).metadata name) = some U := deref_ok.mp hU
      rw [entryRels, hbind] at hr
      exact hrec hp ha₁ ha r hr
  | BATCH stop => cases hp

/-- Where every copy can be made at its place, each entry of a template restricts the bounds as far as it must. -/
theorem relsMet_restrict (hw : WellFormed B) {fuel : Nat} {T : Trampoline} (hI : I ≠ none)
    (hcount : ∀ k ∈ I, k < B.count) (hp : placeCode B (base + buf.max) fuel T I last (base + buf.size) = .ok e)
    (h : trampolineBounds B fuel T I last a = .ok a') (ha : a.1 = buf.size) :
    ∀ r ∈ relsMet B base breaks labels fuel T I last buf, r.Restricts B base a'.2 ∧ r.Formed base e := by
  induction fuel generalizing T last buf e a a' with
  | zero => cases h
  | succ fuel ih =>
      unfold placeCode at hp
      unfold trampolineBounds at h
      unfold relsMet
      generalize T.entries = entries at hp h ⊢
      induction entries generalizing buf a with
      | nil => exact fun r hr => absurd hr List.not_mem_nil
      | cons entry entries ihe =>
          obtain ⟨pos₁, hpos, hrest⟩ := bind_ok.mp hp
          obtain ⟨⟨I₁, a₁⟩, hentry, hbounds⟩ := bind_ok.mp h
          obtain ⟨rfl, hcounts⟩ := entryBounds_counts hw hcount
            (fun hp h => trampolineBounds_counts hw hcount hp h) hpos hentry
          have hwithin : a'.2.Within a₁.2 := entriesBounds_within trampolineBounds_within hbounds
          intro r hmem
          rcases List.mem_append.1 hmem with hr | hr
          · obtain ⟨h1, h2⟩ := entryRels_restrict hI (fun hp h ha => ih hp h ha) hpos hentry ha r hr
            exact ⟨h1.within hwithin, h2.width, h2.instr, h2.behind,
              Int.le_trans h2.inside (placeEntries_le placeCode_le hrest)⟩
          · cases hbytes : entryBytes B (buildBytes B base breaks labels fuel) base last breaks labels entry
              entries.isEmpty I₁ buf with
            | error err =>
                rw [hbytes] at hr
                cases hr
            | ok s =>
                obtain ⟨I₂, buf₂⟩ := s
                rw [hbytes] at hr
                obtain ⟨rfl, rfl⟩ := entryBytes_follows hw hcount (fun hp hb => buildBytes_follows hw hcount hp hb)
                  hpos hbytes
                have hmax := (entryBytes_grows (fun hb => buildBytes_grows hb) hbytes).max
                rw [← hmax] at hrest
                exact ihe (by omega) hrest hbounds r hr

/-! ### Templates without such entries -/

theorem relsMet_unknown (hw : WellFormed B) {fuel : Nat} {T : Trampoline} {k : Nat} (hk : k < B.count)
    (hp : placeCode B (base + buf.max) fuel T (some k) last (base + buf.size) = .ok e)
    (hu : usesKnown B fuel T k = false) :
    ∀ r ∈ relsMet B base breaks labels fuel T (some k) last buf, r.value.known = false := by
  have hI : ∀ j ∈ some k, j < B.count := by
    intro j hj
    cases hj
    exact hk
  induction fuel generalizing T last buf e with
  | zero => cases hp
  | succ fuel ih =>
      unfold placeCode at hp
      unfold usesKnown at hu
      unfold relsMet
      generalize T.entries = entries at hp hu ⊢
      induction entries generalizing buf with
      | nil => exact fun r hr => absurd hr List.not_mem_nil
      | cons entry entries ihe =>
          obtain ⟨pos₁, hpos, hrest⟩ := bind_ok.mp hp
          rw [List.any_cons, Bool.or_eq_false_iff] at hu
          obtain ⟨huses, hu⟩ := hu
          intro r hmem
          rcases List.mem_append.1 hmem with hr | hr
          · cases entry with
            | DEBUG | BYTES bytes | ZEROES length | INT8 value | INT16 value | INT32 value | INT64 value
            | LABEL label | TAKE | INSTR | INSTR_BYTES | BREAK optimize =>
                cases hr
            | REL8 value | REL32 value =>
                obtain rfl := List.mem_singleton.1 hr
                exact huses
            | MACRO name =>
                obtain ⟨J, hJ, hexpand⟩ := bind_ok.mp hpos
                obtain ⟨U, hU, hcode⟩ := bind_ok.mp hexpand
                obtain rfl : k = J := Option.some.inj (deref_ok.mp hJ)
                have hbind : ((some k).bind fun J => expandMacro B (B.Is J).metadata name) = some U := deref_ok.mp hU
                rw [entryUses, deref_ok.mp hU] at huses
                rw [entryRels, hbind] at hr
                exact ih hcode huses r hr
            | BATCH stop => cases hpos
          · cases hbytes : entryBytes B (buildBytes B base breaks labels fuel) base last breaks labels entry
              entries.isEmpty (some k) buf with
            | error err =>
                rw [hbytes] at hr
                cases hr
            | ok s =>
                obtain ⟨I₂, buf₂⟩ := s
                rw [hbytes] at hr
                obtain ⟨rfl, rfl⟩ := entryBytes_follows hw hI (fun hp hb => buildBytes_follows hw hI hp hb)
                  hpos hbytes
                have hmax := (entryBytes_grows (fun hb => buildBytes_grows hb) hbytes).max
                rw [← hmax] at hrest
                exact ihe hrest hu r hr

/-! ### Batches -/

/-- What the bounds do for a member of a batch. -/
def memberBounds (B : Binary) (rec : Trampoline → Option Nat → Bool → Int × Bounds → Except Fault (Int × Bounds))
    (a : Int × Bounds) (I : Nat) (last : Bool) : Except Fault (Option (Int × Bounds)) :=
  match (B.Is I).T with
  | some T => do
    let r ← rec T (some I) last a
    .ok (some (a.1 + r.1, r.2))
  | none => .ok (some (a.1 + relocateSize B I, a.2))

theorem memberBounds_some {rec : Trampoline → Option Nat → Bool → Int × Bounds → Except Fault (Int × Bounds)}
    (a : Int × Bounds) (I : Nat) (last : Bool) : memberBounds B rec a I last ≠ .ok none := by
  intro h
  unfold memberBounds at h
  split at h
  · obtain ⟨r, -, h⟩ := bind_ok.mp h
    cases h
  · cases h

theorem trampolineBounds_batch {stop : Int} {fuel : Nat}
    (h : trampolineBounds B (fuel + 1) (.batch stop) I true a = .ok a') :
    ∃ a₁ J K, batchLoop B stop (memberBounds B (trampolineBounds B fuel)) (B.count + 1) a none I =
      .ok (some (a₁, J, K)) ∧ a'.2 = a₁.2 := by
  obtain ⟨⟨I₁, a₁⟩, hentry, hnil⟩ := bind_ok.mp h
  cases hnil
  obtain ⟨o, ho, h⟩ := bind_ok.mp hentry
  cases o with
  | none => exact absurd ho (batchLoop_some memberBounds_some)
  | some o =>
      obtain ⟨a₁, J, K⟩ := o
      refine ⟨a₁, J, K, ho, ?_⟩
      obtain ⟨J', -, h⟩ := bind_ok.mp h
      split at h
      · obtain ⟨r, -, h⟩ := bind_ok.mp h
        cases h
        rfl
      · cases h
        rfl

theorem memberBounds_within {K : Nat} {fuel : Nat}
    (h : memberBounds B (trampolineBounds B fuel) a K last = .ok (some a')) : a'.2.Within a.2 := by
  unfold memberBounds at h
  split at h
  · obtain ⟨r, hr, h⟩ := bind_ok.mp h
    have hwithin : r.2.Within a.2 := trampolineBounds_within hr
    cases h
    exact hwithin
  · cases h
    exact .refl _

theorem placeMember_le {K : Nat} (h : placeMember B limit pos K last = .ok (some e)) : pos ≤ e := by
  unfold placeMember at h
  split at h
  · obtain ⟨e', he, heq⟩ := map_ok.mp h
    cases heq
    exact placeCode_le he
  · obtain ⟨e', he, heq⟩ := map_ok.mp h
    cases heq
    obtain ⟨-, rfl⟩ := placeCopy_ok.mp he
    omega

theorem memberBytes_follows (hw : WellFormed B) {K : Nat} {buf' : Buffer} (hK : K < B.count)
    (hp : placeMember B (base + buf.max) (base + buf.size) K last = .ok (some e))
    (hb : memberBytes B (buildBytes B base breaks labels MACRO_DEPTH_MAX) base buf K last = .ok (some buf')) :
    e = base + buf'.size := by
  have hI : ∀ k ∈ some K, k < B.count := by
    intro k hk
    cases hk
    exact hK
  cases hT : (B.Is K).T with
  | some T =>
      simp only [placeMember, hT, map_ok] at hp
      simp only [memberBytes, hT] at hb
      obtain ⟨e', he, heq⟩ := hp
      cases heq
      obtain ⟨buf₁, hbuf₁, hb⟩ := bind_ok.mp hb
      cases hb
      exact buildBytes_follows hw hI he hbuf₁
  | none =>
      simp only [placeMember, hT, map_ok] at hp
      simp only [memberBytes, hT] at hb
      obtain ⟨e', he, heq⟩ := hp
      cases heq
      obtain ⟨code, hcode, hcopy⟩ := placeCopy_copies (hw.size K hK).2 he
      rw [hcopy, if_neg (by simp only; omega)] at hb
      cases hb
      exact hcode

/-- A member: what is counted behind it, and what its entries ask. -/
theorem member_counts (hw : WellFormed B) {K : Nat} (hK : K < B.count) {off : Bool}
    (hp : placeMember B limit pos K last = .ok (some e))
    (h : memberBounds B (trampolineBounds B MACRO_DEPTH_MAX) a K last = .ok (some a'))
    (ha : off = false → a.1 = pos - base)
    (hoff : (off || ((B.Is K).T.isSome && decide (pos ≠ base))) = false) : a'.1 = e - base := by
  rw [Bool.or_eq_false_iff] at hoff
  have ha := ha hoff.1
  have hI : ∀ k ∈ some K, k < B.count := by
    intro k hk
    cases hk
    exact hK
  cases hT : (B.Is K).T with
  | some T =>
      rw [hT, Option.isSome_some, Bool.true_and, decide_eq_false_iff_not, not_not] at hoff
      simp only [placeMember, hT, map_ok] at hp
      simp only [memberBounds, hT] at h
      obtain ⟨e', he, heq⟩ := hp
      cases heq
      obtain ⟨r, hr, h⟩ := bind_ok.mp h
      cases h
      have hcount := trampolineBounds_counts hw hI he hr
      dsimp only
      omega
  | none =>
      simp only [placeMember, hT, map_ok] at hp
      simp only [memberBounds, hT] at h
      obtain ⟨e', he, heq⟩ := hp
      cases heq
      cases h
      obtain ⟨⟨hr, -⟩, rfl⟩ := placeCopy_ok.mp he
      dsimp only
      rw [(copySize_eq (hw.size K hK).2 hr).2]
      omega

theorem member_restricts (hw : WellFormed B) {K : Nat} (hK : K < B.count) {off : Bool}
    (hp : placeMember B (base + buf.max) (base + buf.size) K last = .ok (some e))
    (h : memberBounds B (trampolineBounds B MACRO_DEPTH_MAX) a K last = .ok (some a'))
    (ha : off = false → a.1 = buf.size)
    (hfree : off = true → ∀ T ∈ (B.Is K).T, usesKnown B MACRO_DEPTH_MAX T K = false) {T : Trampoline}
    (hT : (B.Is K).T = some T) :
    ∀ r ∈ relsMet B base breaks labels MACRO_DEPTH_MAX T (some K) last buf, r.value.known = true →
      r.Restricts B base a'.2 ∧ r.Formed base e := by
  intro r hr hknown
  simp only [placeMember, hT, map_ok] at hp
  simp only [memberBounds, hT] at h
  obtain ⟨e', he, heq⟩ := hp
  cases heq
  obtain ⟨s, hs, h⟩ := bind_ok.mp h
  cases h
  have hI : ∀ k ∈ some K, k < B.count := by
    intro k hk
    cases hk
    exact hK
  cases off with
  | false => exact relsMet_restrict hw (Option.some_ne_none K) hI he hs (ha rfl) r hr
  | true =>
      have hnot := relsMet_unknown hw hK he (hfree rfl T hT) r hr
      rw [hnot] at hknown
      cases hknown

/-- The members of a batch, from one of them on. -/
theorem batchRels_restrict (hw : WellFormed B) {stop : Int} {fuel : Nat} {off : Bool} {J J₁ I₁ J₂ I₂ : Option Nat}
    (hI : ∀ k ∈ I, k < B.count)
    (hp : batchLoop B stop (placeMember B (base + buf.max)) fuel (base + buf.size) J I = .ok (some (e, J₁, I₁)))
    (h : batchLoop B stop (memberBounds B (trampolineBounds B MACRO_DEPTH_MAX)) fuel a J I =
      .ok (some (a', J₂, I₂)))
    (hc : CountedMembers B (base + buf.max) base stop fuel off (base + buf.size) I)
    (ha : off = false → a.1 = buf.size) :
    ∀ r ∈ batchRels B (buildBytes B base breaks labels MACRO_DEPTH_MAX)
        (relsMet B base breaks labels MACRO_DEPTH_MAX) base stop fuel buf I,
      r.value.known = true → r.Restricts B base a'.2 ∧ r.Formed base e := by
  induction fuel generalizing off buf a J I with
  | zero => exact fun r hr => absurd hr List.not_mem_nil
  | succ fuel ih =>
      cases I with
      | none => exact fun r hr => absurd hr List.not_mem_nil
      | some K =>
          have hK := hI K rfl
          unfold batchRels
          unfold batchLoop at hp h
          by_cases hstop : (B.Is K).addr > stop
          · rw [if_pos hstop]
            exact fun r hr => absurd hr List.not_mem_nil
          simp only [if_neg hstop] at hp h ⊢
          obtain ⟨o, ho, hp⟩ := bind_ok.mp hp
          obtain ⟨o', ho', h⟩ := bind_ok.mp h
          cases o with
          | none => cases hp
          | some pos =>
          cases o' with
          | none => cases h
          | some a₁ =>
          obtain ⟨hfree, hbehind⟩ := hc (Int.not_lt.1 hstop)
          have hle : pos ≤ e :=
            batchLoop_keeps (P := fun q => pos ≤ q) (fun hq hm => Int.le_trans hq (placeMember_le hm))
              (Int.le_refl _) hp
          have hwithin : a'.2.Within a₁.2 :=
            batchLoop_keeps (P := fun b => b.2.Within a₁.2) (fun hb hm => (memberBounds_within hm).trans hb)
              (.refl _) h
          intro r hmem hknown
          rcases List.mem_append.1 hmem with hr | hr
          · cases hT : (B.Is K).T with
            | none =>
                rw [hT] at hr
                cases hr
            | some T =>
                rw [hT] at hr
                obtain ⟨h1, h2⟩ := member_restricts hw hK ho ho' ha hfree hT r hr hknown
                exact ⟨h1.within hwithin, h2.width, h2.instr, h2.behind, Int.le_trans h2.inside hle⟩
          · cases hb : memberBytes B (buildBytes B base breaks labels MACRO_DEPTH_MAX) base buf K
              ((B.Is K).addr = stop) with
            | error err =>
                rw [hb] at hr
                cases hr
            | ok o =>
            cases o with
            | none =>
                rw [hb] at hr
                cases hr
            | some buf₁ =>
                rw [hb] at hr
                have hcount : (off || ((B.Is K).T.isSome && decide (base + buf.size ≠ base))) = false →
                    a₁.1 = pos - base :=
                  member_counts hw hK ho ho' (fun hoff => by rw [ha hoff]; omega)
                have hc₁ := hbehind pos ho
                obtain rfl := memberBytes_follows hw hK ho hb
                have hmax := (memberBytes_grows (fun hT => buildBytes_grows hT) hb).max
                rw [← hmax] at hp hc₁
                refine ih (fun k hk => (next_some hw hk).2) hp h hc₁ (fun hoff => ?_) r hr hknown
                have := hcount hoff
                omega

end

/-! ### Where the error comes from -/

/-- The command does not fail with the error of an entry. -/
def RelSafe {α : Type} (x : Except Fault α) : Prop := ∀ err, x = .error err → ¬ relError err

theorem RelSafe.ok {α : Type} (a : α) : RelSafe (.ok a) := nofun

theorem RelSafe.assert (p : Prop) [Decidable p] : RelSafe (assert p) := by
  intro err h
  unfold E9Patch.assert at h
  split at h
  · cases h
  · cases h
    exact id

theorem RelSafe.deref {α : Type} (p : Option α) : RelSafe (deref p) := by
  intro err h
  cases p with
  | none =>
      cases h
      exact id
  | some a => cases h

theorem RelSafe.bind {α β : Type} {x : Except Fault α} {f : α → Except Fault β} (hx : RelSafe x)
    (hf : ∀ a, RelSafe (f a)) : RelSafe (x >>= f) := by
  intro err h
  cases x with
  | error e =>
      have heq : (.error e : Except Fault β) = .error err := h
      cases heq
      exact hx err rfl
  | ok a => exact hf a err h

theorem RelSafe.fail {α : Type} {message : String} (h : ¬ relError (.error message)) :
    RelSafe (.error (.error message) : Except Fault α) := by
  rintro err heq
  cases heq
  exact h

section
variable {B : Binary} {base addr : Int} {breaks : BreakInfo} {labels : LabelSet} {buf : Buffer} {I : Option Nat}

theorem getBuiltinLabelAddress_relSafe (J : Nat) (label : String) : RelSafe (getBuiltinLabelAddress B J label) := by
  unfold getBuiltinLabelAddress
  split_ifs
  · exact .ok _
  · exact .ok _
  · exact .ok _
  · split
    · exact .fail (by decide)
    · exact .ok _
  · exact .ok _

theorem lookupLabel_relSafe (label : String) : RelSafe (lookupLabel B label I addr labels) := by
  unfold lookupLabel
  split
  · exact .fail (by decide)
  split
  · split
    · exact .ok _
    · intro err h
      cases h
      exact id
  · refine .bind (getBuiltinLabelAddress_relSafe _ label) fun target => ?_
    split
    · exact .ok _
    split
    · exact .fail (by decide)
    · exact .ok _

theorem entryValue_relSafe (value : Value) : RelSafe (entryValue B I addr labels value) := by
  cases value with
  | label name => exact .bind (lookupLabel_relSafe name) fun _ => .ok _
  | uint64 value => exact .ok _

theorem entryRel_relSafe (value : Value) : RelSafe (entryRel B I addr labels value) := by
  cases value with
  | label name => exact lookupLabel_relSafe name
  | uint64 value => exact .ok _

theorem buildBreakJump_relSafe (mode : BuildMode) : RelSafe (buildBreakJump B I addr mode breaks buf) := by
  unfold buildBreakJump
  cases mode with
  | SIZE => exact .ok _
  | BYTES => exact .bind (.deref I) fun J => .bind (.assert _) fun _ => .ok _

theorem buildEpilogue_relSafe (mode : BuildMode) {n : Nat} : RelSafe (buildEpilogue B mode breaks n I addr buf) := by
  induction n generalizing I addr buf with
  | zero => exact .ok _
  | succ n ih =>
      unfold buildEpilogue
      refine .bind (.deref I) fun J => ?_
      split
      · exact .bind (.assert _) fun _ => .bind (buildBreakJump_relSafe mode) fun _ => .ok _
      cases mode with
      | SIZE => exact ih
      | BYTES =>
          simp only
          split
          · exact ih
          · exact .ok _

theorem buildBreak_relSafe (J : Nat) (fallthrough optimize : Bool) (mode : BuildMode) :
    RelSafe (buildBreak B J addr fallthrough optimize mode breaks buf) := by
  unfold buildBreak
  split
  · exact .ok _
  split
  · exact buildBreakJump_relSafe mode
  simp only
  split
  · exact buildBreakJump_relSafe mode
  refine .bind (buildEpilogue_relSafe mode) fun r => ?_
  split
  · exact buildBreakJump_relSafe mode
  · exact .ok _

theorem bind_error {α β : Type} {x : Except Fault α} {f : α → Except Fault β} {err : Fault}
    (h : x >>= f = .error err) : x = .error err ∨ ∃ a, x = .ok a ∧ f a = .error err := by
  cases x with
  | error e =>
      have heq : (.error e : Except Fault β) = .error err := h
      cases heq
      exact .inl rfl
  | ok a => exact .inr ⟨a, rfl, h⟩

theorem batchRels_complete {recB : Trampoline → Option Nat → Bool → Buffer → Except Fault Buffer}
    {recR : Trampoline → Option Nat → Bool → Buffer → List Rel} {stop : Int} {err : Fault} (he : relError err)
    (hrec : ∀ {T I last buf}, recB T I last buf = .error err → ∃ r ∈ recR T I last buf, ¬ r.InRange B labels)
    {fuel : Nat} {J : Option Nat} (h : batchLoop B stop (memberBytes B recB base) fuel buf J I = .error err) :
    ∃ r ∈ batchRels B recB recR base stop fuel buf I, ¬ r.InRange B labels := by
  induction fuel generalizing buf J I with
  | zero => cases h
  | succ fuel ih =>
      cases I with
      | none => cases h
      | some K =>
          unfold batchLoop at h
          unfold batchRels
          by_cases hstop : (B.Is K).addr > stop
          · simp only [if_pos hstop] at h
            cases h
          simp only [if_neg hstop] at h ⊢
          rcases bind_error h with hm | ⟨o, ho, h⟩
          · unfold memberBytes at hm
            cases hT : (B.Is K).T with
            | some T =>
                simp only [hT] at hm ⊢
                rcases bind_error hm with hm | ⟨_, _, hm⟩
                · obtain ⟨r, hr, hout⟩ := hrec hm
                  exact ⟨r, List.mem_append_left _ hr, hout⟩
                · cases hm
            | none =>
                simp only [hT] at hm
                split at hm
                · cases hm
                  exact absurd he (by decide)
                · cases hm
          · cases o with
            | none => cases h
            | some buf₁ =>
                obtain ⟨r, hr, hout⟩ := ih h
                refine ⟨r, List.mem_append_right _ ?_, hout⟩
                rw [ho]
                exact hr

theorem entryRels_complete {recB : Trampoline → Option Nat → Bool → Buffer → Except Fault Buffer}
    {recR : Trampoline → Option Nat → Bool → Buffer → List Rel} {last isLast : Bool} {entry : Entry} {err : Fault}
    (he : relError err)
    (hrec : ∀ {T I last buf}, recB T I last buf = .error err → ∃ r ∈ recR T I last buf, ¬ r.InRange B labels)
    (h : entryBytes B recB base last breaks labels entry isLast I buf = .error err) :
    ∃ r ∈ entryRels B recB recR base last entry I buf, ¬ r.InRange B labels := by
  cases entry with
  | DEBUG | BYTES bytes | ZEROES length | LABEL label => cases h
  | INT8 value | INT16 value | INT32 value | INT64 value =>
      exact absurd he (RelSafe.bind (entryValue_relSafe value) (fun _ => .ok _) err h)
  | INSTR | INSTR_BYTES => exact absurd he (RelSafe.bind (.deref I) (fun _ => .ok _) err h)
  | BREAK optimize =>
      exact absurd he (RelSafe.bind (.deref I) (fun J => .bind (buildBreak_relSafe J _ _ _) fun _ => .ok _) err h)
  | TAKE =>
      refine absurd he (RelSafe.bind (.deref I) (fun J => ?_) err h)
      split
      · exact .fail (by decide)
      · exact .bind (.assert _) fun _ => .ok _
  | REL8 value =>
      rcases bind_error h with h | ⟨rel, hrel, h⟩
      · exact absurd he (entryRel_relSafe value err h)
      · refine ⟨_, List.mem_singleton.2 rfl, fun hin => ?_⟩
        have hfits := hin rel hrel
        simp only at h
        split at h
        · rename_i hout
          simp only [Rel.min, Rel.max] at hfits
          omega
        · cases h
  | REL32 value =>
      rcases bind_error h with h | ⟨rel, hrel, h⟩
      · exact absurd he (entryRel_relSafe value err h)
      · refine ⟨_, List.mem_singleton.2 rfl, fun hin => ?_⟩
        have hfits := hin rel hrel
        simp only at h
        split at h
        · rename_i hout
          simp only [Rel.min, Rel.max] at hfits
          omega
        · cases h
  | MACRO name =>
      rcases bind_error h with h | ⟨J, hJ, h⟩
      · exact absurd he (RelSafe.deref I err h)
      obtain rfl := deref_ok.mp hJ
      rw [entryRels, Option.bind_some]
      split at h
      · cases h
        exact absurd he (by decide)
      · rename_i U hU
        rw [hU]
        rcases bind_error h with h | ⟨_, _, h⟩
        · exact hrec h
        · cases h
  | BATCH stop =>
      rcases bind_error h with h | ⟨o, _, h⟩
      · exact batchRels_complete he hrec h
      · cases o with
        | none => cases h
        | some o =>
            refine absurd he (RelSafe.bind (.deref o.2.1) (fun J => ?_) err h)
            split
            · exact .bind (buildBreak_relSafe J _ _ _) fun _ => .ok _
            · exact .ok _

/-- A failure with the error of an entry is that of an entry that was met. -/
theorem relsMet_complete {err : Fault} (he : relError err) {fuel : Nat} {T : Trampoline} {last : Bool}
    (h : buildBytes B base breaks labels fuel T I last buf = .error err) :
    ∃ r ∈ relsMet B base breaks labels fuel T I last buf, ¬ r.InRange B labels := by
  induction fuel generalizing T I last buf with
  | zero =>
      cases h
      exact absurd he (by decide)
  | succ fuel ih =>
      unfold buildBytes at h
      unfold relsMet
      generalize T.entries = entries at h ⊢
      induction entries generalizing I buf with
      | nil => cases h
      | cons entry entries ihe =>
          rcases bind_error h with h | ⟨s, hs, h⟩
          · obtain ⟨r, hr, hout⟩ := entryRels_complete he ih h
            exact ⟨r, List.mem_append_left _ hr, hout⟩
          · obtain ⟨r, hr, hout⟩ := ihe h
            refine ⟨r, List.mem_append_right _ ?_, hout⟩
            rw [hs]
            exact hr

/-! ### The other passes -/

theorem batchLoop_relSafe {α : Type} {stop : Int} {body : α → Nat → Bool → Except Fault (Option α)}
    (hbody : ∀ a I last, RelSafe (body a I last)) {fuel : Nat} {a : α} {J : Option Nat} :
    RelSafe (batchLoop B stop body fuel a J I) := by
  induction fuel generalizing a J I with
  | zero => exact .ok _
  | succ fuel ih =>
      unfold batchLoop
      split
      · exact .ok _
      split
      · exact .ok _
      refine .bind (hbody _ _ _) fun o => ?_
      cases o with
      | none => exact .ok _
      | some b => exact ih

theorem entryLabels_relSafe {recL : Trampoline → Option Nat → Bool → LabelPass → Except Fault LabelPass}
    {last isLast : Bool} {entry : Entry} {a : LabelPass} (hrec : ∀ T I last a, RelSafe (recL T I last a)) :
    RelSafe (entryLabels B recL last entry isLast I a) := by
  cases entry with
  | DEBUG | BYTES bytes | ZEROES length | INT8 value | INT16 value | INT32 value | INT64 value | REL8 value
  | REL32 value | TAKE =>
      exact .ok _
  | LABEL label =>
      refine .bind (.deref I) fun J => ?_
      split
      · exact .fail (by decide)
      · exact .ok _
  | MACRO name =>
      refine .bind (.deref I) fun J => ?_
      split
      · exact .fail (by decide)
      · exact .bind (hrec _ _ _ _) fun _ => .ok _
  | INSTR | INSTR_BYTES => exact .bind (.deref I) fun _ => .ok _
  | BREAK optimize => exact .bind (.deref I) fun J => .bind (buildBreak_relSafe J _ _ _) fun _ => .ok _
  | BATCH stop =>
      refine .bind (batchLoop_relSafe fun a K last => ?_) fun o => ?_
      · unfold memberLabels
        cases (B.Is K).T with
        | some T => exact .bind (hrec _ _ _ _) fun _ => .ok _
        | none => exact .bind (.ok _) fun _ => .ok _
      · cases o with
        | none => exact .ok _
        | some o =>
            refine .bind (.deref o.2.1) fun J => ?_
            split
            · exact .bind (buildBreak_relSafe J _ _ _) fun _ => .ok _
            · exact .ok _

theorem buildLabelSet_relSafe {fuel : Nat} {T : Trampoline} {last : Bool} {a : LabelPass} :
    RelSafe (buildLabelSet B fuel T I last a) := by
  induction fuel generalizing T I last a with
  | zero =>
      intro err h
      cases h
      exact id
  | succ fuel ih =>
      unfold buildLabelSet
      generalize T.entries = entries
      induction entries generalizing I a with
      | nil => exact .ok _
      | cons entry entries ihe => exact .bind (entryLabels_relSafe fun _ _ _ _ => ih) fun _ => ihe

theorem getTrampolinePrologueStart_relSafe (J : Nat) : RelSafe (getTrampolinePrologueStart B J) := by
  have hloop : ∀ Fs J' K, RelSafe (prologueStartLoop B J Fs J' K) := by
    intro Fs
    induction Fs with
    | nil => exact fun _ K => .ok K
    | cons F Fs ih =>
        intro J' K
        refine .bind (.deref J') fun J' => ?_
        split
        · exact .ok K
        · exact ih _ _
  unfold getTrampolinePrologueStart
  split
  · exact .ok _
  simp only
  split
  · exact .ok _
  split
  · exact .ok _
  · exact hloop _ _ _

theorem buildPrologueLoop_relSafe (J : Nat) (mode : BuildMode) {fuel : Nat} {r : Int} {entries : List (Nat × Int)} :
    RelSafe (buildPrologueLoop B J mode fuel I addr r buf entries) := by
  induction fuel generalizing I addr r buf entries with
  | zero =>
      intro err h
      cases h
      exact id
  | succ fuel ih =>
      unfold buildPrologueLoop
      refine .bind (.deref I) fun K => ?_
      split
      · exact .ok _
      cases mode with
      | SIZE =>
          simp only
          split
          · exact .ok _
          · exact ih
      | BYTES =>
          simp only
          split
          · exact .ok _
          · exact ih

theorem buildPrologue_relSafe (J : Nat) (mode : BuildMode) : RelSafe (buildPrologue B J addr mode buf) := by
  unfold buildPrologue
  split
  · exact .ok _
  refine .bind (getTrampolinePrologueStart_relSafe J) fun K => ?_
  split
  · exact .ok _
  refine .bind (buildPrologueLoop_relSafe J mode) fun r => ?_
  cases r with
  | none => exact .ok _
  | some r => exact .ok _

theorem flattenPrologue_relSafe (fill : UInt8) (presize : Int) : RelSafe (flattenPrologue B fill addr presize I) := by
  unfold flattenPrologue
  split
  · exact .bind (.deref I) fun J => .bind (buildPrologue_relSafe J _) fun _ => .bind (.assert _) fun _ => .ok _
  · exact .ok _

/-- Only the pass for the bytes fails with the error of an entry. -/
theorem flattenTrampoline_error {err : Fault} (he : relError err) {size : Nat} {fill : UInt8} {offset32 entry32 : Int}
    {T : Trampoline} (h : flattenTrampoline B size fill addr offset32 entry32 T I = .error err) :
    ∃ a, buildLabelSet B (MACRO_DEPTH_MAX + 1) T I true ⟨addr, [], []⟩ = .ok a ∧
      buildBytes B addr a.breaks a.labels (MACRO_DEPTH_MAX + 1) T I true
        ⟨[], size - (signed32 (entry32 - offset32)).toNat⟩ = .error err := by
  rcases bind_error h with h | ⟨a, ha, h⟩
  · exact absurd he (buildLabelSet_relSafe err h)
  simp only at h
  split at h
  · cases h
    exact absurd he (by decide)
  rcases bind_error h with h | ⟨s, -, h⟩
  · exact absurd he (flattenPrologue_relSafe fill _ err h)
  rcases bind_error h with h | ⟨buf', -, h⟩
  · exact ⟨a, ha, h⟩
  · exact absurd he (RelSafe.bind (.assert _) (fun _ => .ok _) err h)

end

/-! ### The bounds suffice -/

/-- The entries of the trampoline restrict the bounds as far as they must. -/
theorem flattened_restrict {B : Binary} (hw : WellFormed B) {T : Trampoline} {I : Nat} (hI : I < B.count) {b : Bounds}
    (hb : getTrampolineBounds B T I = .ok b) {base e : Int} {size : Nat}
    (hp : layout B (base + size) T (some I) base = .ok e) (hc : CountedRight B (base + size) base T (some I))
    (breaks : BreakInfo) (labels : LabelSet) :
    INTPTR_MIN ≤ b.lb ∧ ∀ r ∈ relsMet B base breaks labels (MACRO_DEPTH_MAX + 1) T (some I) true ⟨[], size⟩,
      r.value.known = true → r.Restricts B base b ∧ r.Formed base e := by
  have hknown : ∀ k ∈ some I, k < B.count := by
    intro k hk
    cases hk
    exact hI
  have hstart : base + (⟨[], size⟩ : Buffer).size = base := Int.add_zero base
  unfold getTrampolineBounds at hb
  simp only at hb
  split at hb
  · rename_i hT
    cases hb
    rw [hT]
    -- the trampoline of an evictee has no such entry
    refine ⟨Int.le_refl _, fun r hr => ?_⟩
    have hnone : ∀ q, relsMet B base breaks labels (MACRO_DEPTH_MAX + 1) evicteeTrampoline (some I) true q = [] := by
      intro q
      let recB := buildBytes B base breaks labels MACRO_DEPTH_MAX
      change [] ++ (match entryBytes B recB base true breaks labels .INSTR false (some I) q with
        | .ok s => [] ++ (match entryBytes B recB base true breaks labels (.BREAK true) true s.1 s.2 with
          | .ok _ => []
          | .error _ => [])
        | .error _ => []) = []
      split
      · split
        · rfl
        · rfl
      · rfl
    rw [hnone] at hr
    cases hr
  · obtain ⟨a, ha, rfl⟩ := map_ok.mp hb
    have hwithin : a.2.Within ⟨INTPTR_MIN, INTPTR_MAX⟩ := trampolineBounds_within ha
    refine ⟨hwithin.1, ?_⟩
    cases T with
    | batch stop =>
        obtain ⟨o, ho, hp⟩ := bind_ok.mp hp
        cases o with
        | none => cases hp
        | some o =>
            cases hp
            obtain ⟨a₁, J, K, hloop, heq⟩ := trampolineBounds_batch ha
            rw [heq]
            have hrels : ∀ r ∈ batchRels B (buildBytes B base breaks labels MACRO_DEPTH_MAX)
                (relsMet B base breaks labels MACRO_DEPTH_MAX) base stop (B.count + 1) ⟨[], size⟩ (some I),
                r.value.known = true → r.Restricts B base a₁.2 ∧ r.Formed base o.1 :=
              batchRels_restrict hw hknown (by rw [hstart]; exact ho) hloop (by rw [hstart]; exact hc) (fun _ => rfl)
            intro r hr
            rcases List.mem_append.1 hr with hr | hr
            · exact hrels r hr
            · split at hr
              · cases hr
              · cases hr
    | evictee | user T =>
        exact fun r hr _ => relsMet_restrict hw (Option.some_ne_none I) hknown (by rw [hstart]; exact hp) ha rfl r hr

/-- From an entry point within the bounds every entry with a known target reaches it, where each copy can be made
at its place, no member of a batch that has a template and is not at its start stands before such an entry, and
the targets are addresses. -/
theorem bounds_suffice {B : Binary} (hB : Reachable B) {T : Trampoline} {I : Nat} (hI : I < B.count) {b : Bounds}
    (hb : getTrampolineBounds B T I = .ok b) {base e : Int} (hlb : b.lb ≤ base) (hub : base ≤ b.ub) {size : Nat}
    {offset32 entry32 : Int}
    (hp : layout B (base + (size - (signed32 (entry32 - offset32)).toNat : Nat)) T (some I) base = .ok e)
    (he : e ≤ 2 ^ 62)
    (hc : CountedRight B (base + (size - (signed32 (entry32 - offset32)).toNat : Nat)) base T (some I))
    (hproper : ∀ a, buildLabelSet B (MACRO_DEPTH_MAX + 1) T (some I) true ⟨base, [], []⟩ = .ok a →
      ∀ r ∈ relsMet B base a.breaks a.labels (MACRO_DEPTH_MAX + 1) T (some I) true
        ⟨[], size - (signed32 (entry32 - offset32)).toNat⟩, r.value.known = true → r.Proper B) :
    (∀ a, buildLabelSet B (MACRO_DEPTH_MAX + 1) T (some I) true ⟨base, [], []⟩ = .ok a →
      ∀ r ∈ relsMet B base a.breaks a.labels (MACRO_DEPTH_MAX + 1) T (some I) true
        ⟨[], size - (signed32 (entry32 - offset32)).toNat⟩, r.value.known = true → r.InRange B a.labels) ∧
    ∀ fill err, flattenTrampoline B size fill base offset32 entry32 T (some I) = .error err → relError err →
      ∃ a, buildLabelSet B (MACRO_DEPTH_MAX + 1) T (some I) true ⟨base, [], []⟩ = .ok a ∧
        ∃ r ∈ relsMet B base a.breaks a.labels (MACRO_DEPTH_MAX + 1) T (some I) true
          ⟨[], size - (signed32 (entry32 - offset32)).toNat⟩, r.value.known = false ∧ ¬ r.InRange B a.labels := by
  have hw := hB.invariant.wellFormed
  have hin : ∀ a, buildLabelSet B (MACRO_DEPTH_MAX + 1) T (some I) true ⟨base, [], []⟩ = .ok a →
      ∀ r ∈ relsMet B base a.breaks a.labels (MACRO_DEPTH_MAX + 1) T (some I) true
        ⟨[], size - (signed32 (entry32 - offset32)).toNat⟩, r.value.known = true → r.InRange B a.labels := by
    intro a ha r hr hk
    obtain ⟨hmin, hall⟩ := flattened_restrict hw hI hb hp hc a.breaks a.labels
    obtain ⟨h1, h2⟩ := hall r hr hk
    exact inRange_of_restricts h1 h2 he (Int.le_trans hmin hlb) hlb hub hk (hproper a ha r hr hk)
  refine ⟨hin, fun fill err h herr => ?_⟩
  obtain ⟨a, ha, hbytes⟩ := flattenTrampoline_error herr h
  obtain ⟨r, hr, hout⟩ := relsMet_complete herr hbytes
  refine ⟨a, ha, r, hr, ?_, hout⟩
  cases hk : r.value.known with
  | false => rfl
  | true => exact absurd (hin a ha r hr hk) hout

/-! ### A batch that is counted twice -/

/-- Two bytes before the instruction. -/
def padTemplate : Template := ⟨0, [.BYTES [0x90, 0x90], .INSTR]⟩

/-- A call of an absolute address before the instruction. -/
def callTemplate : Template := ⟨1, [.BYTES [0xe8], .REL32 (.uint64 0xa0000000), .INSTR, .BREAK false]⟩

/-- Three instructions of one byte each are queued. -/
def tripleRun : Except Fault Binary := do
  let B ← parseBinary { sampleFile with bytes := byteAt [0x50, 0x51, 0x52, 0xc3] } .ELF_EXE defaultOptions none
  [.instruction [0x400003] [1] [3], .instruction [0x400002] [1] [2], .instruction [0x400001] [1] [1],
    .instruction [0x400000] [1] [0], .patch [callTemplate] [2] [], .patch [padTemplate] [1] [],
    .patch [padTemplate] [0] []].foldlM parseMessage B

def tripleBinary : Binary := tripleRun.toOption.getD (newBinary sampleFile .ELF_EXE defaultOptions)

theorem triple_reachable : Reachable tripleBinary := by
  have h : tripleRun = .ok tripleBinary := ok_getD (by decide +kernel)
  obtain ⟨B₀, h₀, h⟩ := bind_ok.mp h
  exact reachable_of_messages h₀ h

/-- By itself the call reaches its target from the lower bound. -/
theorem call_reaches : Rel.InRange tripleBinary [] ⟨4, .uint64 0xa0000000, some 1, 536870909⟩ := by
  have hlabels : buildLabelSet tripleBinary (MACRO_DEPTH_MAX + 1) (.user callTemplate) (some 1) true
      ⟨536870908, [], []⟩ = .ok ⟨536870919, [], []⟩ := by decide +kernel
  have hrels : relsMet tripleBinary 536870908 [] [] (MACRO_DEPTH_MAX + 1) (.user callTemplate) (some 1) true
      ⟨[], 64 - (signed32 (0 - 0 : Int)).toNat⟩ = [⟨4, .uint64 0xa0000000, some 1, 536870909⟩] := by decide +kernel
  have hsuffice := bounds_suffice triple_reachable (T := .user callTemplate) (I := 1)
    (b := ⟨536870908, 4831838201⟩) (by decide +kernel) (by decide +kernel) (by decide) (by decide)
    (e := 536870919)
    (by decide +kernel : layout tripleBinary (536870908 + (64 - (signed32 (0 - 0 : Int)).toNat : Nat))
      (.user callTemplate) (some 1) 536870908 = .ok 536870919) (by decide) trivial ?_
  · refine hsuffice.1 _ hlabels _ ?_ rfl
    dsimp only
    rw [hrels]
    exact List.mem_singleton.2 rfl
  · intro a ha r hr _ t ht
    obtain rfl := Except.ok.inj (hlabels.symm.trans ha)
    dsimp only at hr
    rw [hrels] at hr
    obtain rfl := List.mem_singleton.1 hr
    obtain rfl := Except.ok.inj ht
    decide

/-- The call is counted three bytes too far, and from the lower bound it does not reach the address. -/
theorem batch_counted_twice : ∃ B T I b, Reachable B ∧ I < B.count ∧ getTrampolineBounds B T I = .ok b ∧ b.lb ≤ b.ub ∧
    flattenTrampoline B 64 0xcc b.lb 0 0 T (some I) =
      .error (.error "failed to build trampoline; rel32 value (%zd) is out-of-range (%zd..%zd)") ∧
    ∃ a, buildLabelSet B (MACRO_DEPTH_MAX + 1) T (some I) true ⟨b.lb, [], []⟩ = .ok a ∧
      relsMet B b.lb a.breaks a.labels (MACRO_DEPTH_MAX + 1) T (some I) true ⟨[], 64⟩ =
        [⟨4, .uint64 0xa0000000, some 1, b.lb + 7⟩] := by
  refine ⟨tripleBinary, .batch 0x400002, 3, ⟨536870899, 4831838192⟩, triple_reachable, ?_, ?_, ?_, ?_, ?_⟩
  · decide +kernel
  · decide +kernel
  · decide
  · decide +kernel
  · refine ⟨⟨536870916, [(0x400001, 536870905), (0x400000, 536870902)], []⟩, ?_, ?_⟩
    · decide +kernel
    · decide +kernel

end E9Patch
