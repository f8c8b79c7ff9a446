import Mathlib.Data.List.Lex
import E9Patch.JsonModel
import E9Patch.OrderedSet

/-!
Parsed trampoline templates are shared: a template is looked up in a set whose comparison does not see whether
a break may be optimised, and reads labels that may be null.
-/

namespace E9Patch
open Bytes Numerals

def PROT_READ : Nat := 1
def PROT_WRITE : Nat := 2
def PROT_EXEC : Nat := 4

/-- A trampoline template as it is kept by the parser. -/
structure ParsedTrampoline where
  prot : Nat
  preload : Bool
  entries : List ParsedEntry
  deriving DecidableEq, Repr

/-! ### Comparison -/

/-- `strcmp`, and `memcmp` for runs of the same length. -/
def compareChars : List Nat → List Nat → Int
  | [], [] => 0
  | [], _ :: _ => -1
  | _ :: _, [] => 1
  | a :: as, b :: bs => if a ≠ b then a - b else compareChars as bs

def stringChars (s : String) : List Nat := s.toList.map Char.toNat

/-- The order of `EntryKind`. -/
def Entry.kind : Entry → Nat
  | .DEBUG => 0
  | .BYTES _ => 1
  | .ZEROES _ => 2
  | .LABEL _ => 3
  | .MACRO _ => 4
  | .REL8 _ => 5
  | .REL32 _ => 6
  | .INT8 _ => 7
  | .INT16 _ => 8
  | .INT32 _ => 9
  | .INT64 _ => 10
  | .INSTR => 11
  | .INSTR_BYTES => 12
  | .BREAK _ => 13
  | .TAKE => 14
  | .BATCH _ => 15

/-- `if (cmp != 0) return (cmp < 0);` -/
def compareStrings (a b : List Nat) : Option Bool :=
  let cmp := compareChars a b
  if cmp ≠ 0 then some (cmp < 0) else none

/-- `if (a != b) return (a < b);` -/
def compareNumbers (a b : Nat) : Option Bool := if a ≠ b then some (a < b) else none

def compareValues : Value → Value → Option Bool
  | .uint64 _, .label _ => some true
  | .label _, .uint64 _ => some false
  | .label a, .label b => compareStrings (stringChars a) (stringChars b)
  | .uint64 a, .uint64 b => compareNumbers a b

/-- The payloads of two entries of the same kind. -/
def comparePayloads : Entry → Entry → Option Bool
  | .BYTES a, .BYTES b =>
    (compareNumbers a.length b.length).or (compareStrings (a.map UInt8.toNat) (b.map UInt8.toNat))
  | .ZEROES a, .ZEROES b => compareNumbers a b
  | .LABEL a, .LABEL b => compareStrings (stringChars a) (stringChars b)
  | .MACRO a, .MACRO b => compareStrings (stringChars a) (stringChars b)
  | .REL8 a, .REL8 b => compareValues a b
  | .REL32 a, .REL32 b => compareValues a b
  | .INT8 a, .INT8 b => compareValues a b
  | .INT16 a, .INT16 b => compareValues a b
  | .INT32 a, .INT32 b => compareValues a b
  | .INT64 a, .INT64 b => compareValues a b
  | .BATCH a, .BATCH b => compareNumbers (toU64 a) (toU64 b)
  | _, _ => none

/-- A null label is that of a label entry. -/
def ParsedEntry.kind (e : ParsedEntry) : Nat := e.elim 3 Entry.kind

/-- The body of the loop: what it returns, if it does. -/
def compareEntries (a b : ParsedEntry) : Except Fault (Option Bool) :=
  if a.kind ≠ b.kind then .ok (some (a.kind < b.kind))
  else match a, b with
    | some a, some b => .ok (comparePayloads a b)
    -- `strcmp` of a null label
    | _, _ => .error .null

/-- The loop over the entries of two templates with as many. -/
def compareLoop : List ParsedEntry → List ParsedEntry → Except Fault Bool
  | a :: as, b :: bs => do
    let r ← compareEntries a b
    match r with
    | some less => .ok less
    | none => compareLoop as bs
  | _, _ => .ok false

/-- Trampoline comparison. -/
def TrampolineCmp (a b : ParsedTrampoline) : Except Fault Bool :=
  if a.entries.length ≠ b.entries.length then .ok (a.entries.length < b.entries.length)
  else compareLoop a.entries b.entries

/-! ### Parsing -/

/-- A template from its entries. -/
def newTrampoline (entries : List ParsedEntry) : ParsedTrampoline :=
  { prot := PROT_READ ||| PROT_EXEC, preload := false, entries := entries }

/-- Duplicate trampolines: the template, and the cache. -/
def dupTrampoline (cache : List ParsedTrampoline) (entries : List ParsedEntry) :
    Except Fault (ParsedTrampoline × List ParsedTrampoline) :=
  (OrderedSet.tryInsert TrampolineCmp cache (newTrampoline entries)).map Prod.swap

/-- The cache after some templates were parsed. -/
def dupAll (parsed : List (List ParsedEntry)) : Except Fault (List ParsedTrampoline) :=
  parsed.foldlM (fun cache entries => (dupTrampoline cache entries).map (·.2)) []

/-- Create a MACRO template entry. -/
def makeMacroEntry (macro_ : List UInt8) : Entry :=
  if macro_ = ascii "$BREAK" then .BREAK true
  else if macro_ = ascii "$bytes" then .INSTR_BYTES
  else if macro_ = ascii "$break" then .BREAK false
  else if macro_ = ascii "$instr" then .INSTR
  else if macro_ = ascii "$take" then .TAKE
  else .MACRO (toLabel macro_)

/-- The bytes so far, as an entry. -/
def flushBytes (bytes : List UInt8) (entries : List ParsedEntry) : List ParsedEntry :=
  if bytes = [] then entries else entries ++ [some (.BYTES bytes)]

/-- One item of a template: the bytes and the entries so far. -/
def parseItem (token : Token) (p : Parser) (bytes : List UInt8) (entries : List ParsedEntry) :
    Except ParseError ((List UInt8 × List ParsedEntry) × Parser) :=
  match token with
  | .number i =>
    if i < 0 ∨ i > 255 then p.fail (.byte i)
    else .ok ((bytes ++ [UInt8.ofNat i.toNat], entries), p)
  | .string s =>
    if s.head? = some 0x24 then .ok (([], flushBytes bytes entries ++ [some (makeMacroEntry s)]), p)
    else if s.take 2 = ascii ".L" then .ok (([], flushBytes bytes entries ++ [some (.LABEL (toLabel s))]), p)
    else p.fail (.unexpected "template entry" token.kind)
  | .symbol 0x7b =>
    (makeDataEntry p).map fun r => (([], flushBytes bytes entries ++ [r.1]), r.2)
  | .null => .ok (([], flushBytes bytes entries), p)
  | _ => p.fail (.unexpected "template entry" token.kind)

/-- The loop of `parseTrampoline`. -/
def parseItems : Nat → Token → Parser → List UInt8 → List ParsedEntry → Except ParseError (List ParsedEntry × Parser)
  | 0, _, p, _, _ => p.fail .fuel
  | fuel + 1, token, p, bytes, entries =>
    if token = .symbol 0x5d then .ok (flushBytes bytes entries, p)
    else do
      let r ← parseItem token p bytes entries
      let t ← expectToken2 r.2 0x2c 0x5d
      let t ← if t.1 = .symbol 0x2c then getToken t.2 else .ok t
      parseItems fuel t.1 t.2 r.1.1 r.1.2

/-- Parse a template object. Every round of the loop takes a character of the stream. -/
def parseTemplate (p : Parser) (debug : Bool) (cache : List ParsedTrampoline) :
    Except ParseError ((ParsedTrampoline × List ParsedTrampoline) × Parser) := do
  let entries : List ParsedEntry := if debug then [some .DEBUG] else []
  let t ← getToken p
  let r ← if t.1 = .symbol 0x5b then do
      let t ← getToken t.2
      parseItems (p.stream.length + 1) t.1 t.2 [] entries
    else if t.1 = .symbol 0x5d then .ok (entries, t.2)
    else (parseItem t.1 t.2 [] entries).map fun r => (flushBytes r.1.1 r.1.2, r.2)
  match dupTrampoline cache r.1 with
  | .ok T => .ok (T, r.2)
  | .error f => r.2.fail (.fault f)

/-! ### Keys -/

def Value.key : Value → List Nat
  | .uint64 n => [0, n]
  | .label s => 1 :: stringChars s

/-- What the comparison sees of an entry. -/
def Entry.key : Entry → List Nat
  | .BYTES bytes => 1 :: bytes.length :: bytes.map UInt8.toNat
  | .ZEROES length => [2, length]
  | .LABEL s => 3 :: 0 :: stringChars s
  | .MACRO s => 4 :: stringChars s
  | .REL8 v => 5 :: v.key
  | .REL32 v => 6 :: v.key
  | .INT8 v => 7 :: v.key
  | .INT16 v => 8 :: v.key
  | .INT32 v => 9 :: v.key
  | .INT64 v => 10 :: v.key
  | .BATCH addr => [15, toU64 addr]
  | e => [e.kind]

/-- A null label is put below all labels. -/
def ParsedEntry.key (e : ParsedEntry) : List Nat := e.elim [3] Entry.key

/-- What the comparison sees of a template: the number of its entries, then each of them. -/
def templateKey (T : ParsedTrampoline) : List (List Nat) := [T.entries.length] :: T.entries.map ParsedEntry.key

/-- An entry, but for the flag of a break; an address is its 64 bits. -/
def Entry.forget : Entry → Entry
  | .BREAK _ => .BREAK false
  | .BATCH addr => .BATCH (toU64 addr)
  | e => e

/-- The same entries, but for the flags of breaks. -/
def EqualButBreaks (a b : List ParsedEntry) : Prop := a.map (Option.map Entry.forget) = b.map (Option.map Entry.forget)

instance (a b : List ParsedEntry) : Decidable (EqualButBreaks a b) := inferInstanceAs (Decidable (_ = _))

/-- Two label entries, one of which is null. -/
def NullLabels (a b : ParsedEntry) : Prop := a.kind = b.kind ∧ (a = none ∨ b = none)

/-- There is a null label where the other template has a label as well, and in front of it the entries are the same, but
for the flags of breaks. -/
def NullMeets : List ParsedEntry → List ParsedEntry → Prop
  | a :: as, b :: bs => NullLabels a b ∨ EqualButBreaks [a] [b] ∧ NullMeets as bs
  | _, _ => False

/-- The comparison comes to a null label. -/
def ReadsNull (a b : List ParsedEntry) : Prop := a.length = b.length ∧ NullMeets a b

/-- A template whose labels all have a name. -/
def ParsedTrampoline.Named (T : ParsedTrampoline) : Prop := none ∉ T.entries

/-! ### The comparison is by the keys -/

/-- A comparison that returns the order of two keys, unless they are the same. -/
def Compares {κ : Type} [LinearOrder κ] (r : Option Bool) (a b : κ) : Prop :=
  (r = none ∧ a = b) ∨ (r = some true ∧ a < b) ∨ (r = some false ∧ b < a)

theorem compareChars_spec (as bs : List Nat) :
    (compareChars as bs = 0 ∧ as = bs) ∨ (compareChars as bs < 0 ∧ as < bs) ∨
      (compareChars as bs > 0 ∧ bs < as) := by
  induction as generalizing bs with
  | nil => cases bs <;> simp [compareChars]
  | cons a as ih =>
      cases bs with
      | nil => simp [compareChars]
      | cons b bs =>
          rw [compareChars, List.cons_lt_cons_iff, List.cons_lt_cons_iff, List.cons.injEq]
          by_cases hab : a = b
          · subst hab
            simpa using ih bs
          · rw [if_pos hab]
            omega

theorem compareStrings_spec (as bs : List Nat) : Compares (compareStrings as bs) as bs := by
  unfold compareStrings
  rcases compareChars_spec as bs with ⟨h, heq⟩ | ⟨h, hlt⟩ | ⟨h, hlt⟩
  · exact Or.inl ⟨by simp [h], heq⟩
  · exact Or.inr (Or.inl ⟨by simp [h, Int.ne_of_lt h], hlt⟩)
  · refine Or.inr (Or.inr ⟨?_, hlt⟩)
    simp only [if_pos (show compareChars as bs ≠ 0 by omega), decide_eq_false (show ¬compareChars as bs < 0 by omega)]

theorem compareNumbers_spec (a b : Nat) : Compares (compareNumbers a b) a b := by
  unfold compareNumbers
  rcases Nat.lt_trichotomy a b with h | rfl | h
  · exact Or.inr (Or.inl ⟨by simp [h, Nat.ne_of_lt h], h⟩)
  · exact Or.inl ⟨by simp, rfl⟩
  · exact Or.inr (Or.inr ⟨by simp [Nat.ne_of_gt h, Nat.le_of_lt h], h⟩)

/-- Behind the same first character, the rest is compared. -/
theorem Compares.cons {r : Option Bool} {as bs : List Nat} (c : Nat) (h : Compares r as bs) :
    Compares r (c :: as) (c :: bs) := by
  simpa only [Compares, List.cons.injEq, true_and, List.cons_lt_cons_iff, lt_irrefl, false_or] using h

theorem Compares.number {a b : Nat} {r : Option Bool} (h : Compares r a b) : Compares r [a] [b] := by
  simpa only [Compares, List.cons.injEq, and_true, List.cons_lt_cons_iff, List.lt_irrefl, and_false, or_false]
    using h

/-- A number first, and only if it is the same the rest. -/
theorem Compares.or {a b : Nat} {as bs : List Nat} {r r' : Option Bool} (h : Compares r a b)
    (h' : Compares r' as bs) : Compares (r.or r') (a :: as) (b :: bs) := by
  rcases h with ⟨rfl, rfl⟩ | ⟨rfl, hlt⟩ | ⟨rfl, hlt⟩
  · rw [Option.none_or]
    exact h'.cons a
  · exact Or.inr (Or.inl ⟨rfl, List.cons_lt_cons_iff.mpr (Or.inl hlt)⟩)
  · exact Or.inr (Or.inr ⟨rfl, List.cons_lt_cons_iff.mpr (Or.inl hlt)⟩)

theorem compareValues_spec (v w : Value) : Compares (compareValues v w) v.key w.key := by
  cases v with
  | label s =>
      cases w with
      | label t => exact (compareStrings_spec _ _).cons 1
      | uint64 n => exact Or.inr (Or.inr ⟨rfl, List.cons_lt_cons_iff.mpr (Or.inl Nat.one_pos)⟩)
  | uint64 m =>
      cases w with
      | label t => exact Or.inr (Or.inl ⟨rfl, List.cons_lt_cons_iff.mpr (Or.inl Nat.one_pos)⟩)
      | uint64 n => exact (compareNumbers_spec m n).number.cons 0

theorem Entry.key_eq (e : Entry) : e.key = e.kind :: e.key.tail := by
  cases e <;> rfl

theorem ParsedEntry.key_eq (e : ParsedEntry) : e.key = e.kind :: e.key.tail := by
  cases e with
  | none => rfl
  | some e => exact e.key_eq

/-- The keys of entries of different kinds are in the order of the kinds. -/
theorem ParsedEntry.key_lt {a b : ParsedEntry} (h : a.kind < b.kind) : a.key < b.key := by
  rw [a.key_eq, b.key_eq]
  exact List.cons_lt_cons_iff.mpr (Or.inl h)

theorem comparePayloads_spec {a b : Entry} (hkind : a.kind = b.kind) : Compares (comparePayloads a b) a.key b.key := by
  cases a <;> cases b <;> first | (cases hkind; done) | skip
  case BYTES.BYTES as bs => exact ((compareNumbers_spec _ _).or (compareStrings_spec _ _)).cons 1
  case ZEROES.ZEROES a b => exact (compareNumbers_spec a b).number.cons 2
  case LABEL.LABEL a b => exact ((compareStrings_spec _ _).cons 0).cons 3
  case MACRO.MACRO a b => exact (compareStrings_spec _ _).cons 4
  case REL8.REL8 a b => exact (compareValues_spec a b).cons 5
  case REL32.REL32 a b => exact (compareValues_spec a b).cons 6
  case INT8.INT8 a b => exact (compareValues_spec a b).cons 7
  case INT16.INT16 a b => exact (compareValues_spec a b).cons 8
  case INT32.INT32 a b => exact (compareValues_spec a b).cons 9
  case INT64.INT64 a b => exact (compareValues_spec a b).cons 10
  case BATCH.BATCH a b => exact (compareNumbers_spec _ _).number.cons 15
  all_goals exact Or.inl ⟨rfl, rfl⟩

theorem compareEntries_null {a b : ParsedEntry} (h : NullLabels a b) : compareEntries a b = .error .null := by
  obtain ⟨hkind, rfl | rfl⟩ := h
  · unfold compareEntries
    rw [if_neg fun hne => hne hkind]
  · unfold compareEntries
    rw [if_neg fun hne => hne hkind]
    cases a <;> rfl

theorem compareEntries_spec {a b : ParsedEntry} (h : ¬NullLabels a b) :
    ∃ r, compareEntries a b = .ok r ∧ Compares r a.key b.key := by
  unfold compareEntries
  by_cases hkind : a.kind = b.kind
  · rw [if_neg fun hne => hne hkind]
    cases a with
    | none => exact absurd ⟨hkind, Or.inl rfl⟩ h
    | some a =>
        cases b with
        | none => exact absurd ⟨hkind, Or.inr rfl⟩ h
        | some b => exact ⟨_, rfl, comparePayloads_spec hkind⟩
  · rw [if_pos hkind]
    refine ⟨_, rfl, ?_⟩
    rcases Nat.lt_or_gt_of_ne hkind with hlt | hgt
    · exact Or.inr (Or.inl ⟨by simp [hlt], ParsedEntry.key_lt hlt⟩)
    · exact Or.inr (Or.inr ⟨by simp [Nat.le_of_lt hgt], ParsedEntry.key_lt hgt⟩)

/-! ### What the keys forget -/

theorem stringChars_inj {s t : String} : stringChars s = stringChars t ↔ s = t := by
  unfold stringChars
  rw [List.map_inj_right (fun a b h => Char.toNat_inj.mp h), String.toList_inj]

theorem Value.key_inj {v w : Value} : v.key = w.key ↔ v = w := by
  cases v <;> cases w <;> simp [Value.key, stringChars_inj]

theorem Entry.key_forget (e : Entry) : e.forget.key = e.key := by
  cases e with
  | BATCH addr =>
      show [15, toU64 (toU64 addr : Int)] = [15, toU64 addr]
      simp only [toU64]
      congr 2
      omega
  | _ => rfl

theorem Entry.key_inj {a b : Entry} : a.key = b.key ↔ a.forget = b.forget := by
  constructor
  · intro h
    have hkind : a.kind = b.kind := by
      rw [a.key_eq, b.key_eq] at h
      exact (List.cons.inj h).1
    cases a <;> cases b <;> first | (cases hkind; done) | skip
    case BYTES.BYTES as bs =>
        have hbytes := (List.cons.inj (List.cons.inj h).2).2
        rw [List.map_inj_right fun x y hxy => UInt8.toNat_inj.mp hxy] at hbytes
        rw [hbytes]
    all_goals simp_all [Entry.key, Entry.forget, stringChars_inj, Value.key_inj]
  · intro h
    rw [← a.key_forget, ← b.key_forget, h]

theorem ParsedEntry.key_inj {a b : ParsedEntry} : a.key = b.key ↔ EqualButBreaks [a] [b] := by
  have hnull : ∀ e : Entry, e.key ≠ [3] := by
    intro e
    cases e <;> simp [Entry.key, Entry.kind]
  unfold EqualButBreaks
  rw [List.map_singleton, List.map_singleton, List.singleton_inj]
  cases a with
  | none =>
      cases b with
      | none => simp
      | some b => exact ⟨fun h => absurd h.symm (hnull b), nofun⟩
  | some a =>
      cases b with
      | none => exact ⟨fun h => absurd h (hnull a), nofun⟩
      | some b =>
          rw [Option.map_some, Option.map_some, Option.some_inj]
          exact Entry.key_inj

/-- Entries with the same key have the same kind, and are both null or both not. -/
theorem ParsedEntry.key_kind {a b : ParsedEntry} (h : a.key = b.key) : a.kind = b.kind ∧ (a = none ↔ b = none) := by
  have hforget := key_inj.mp h
  rw [a.key_eq, b.key_eq] at h
  refine ⟨(List.cons.inj h).1, ?_⟩
  unfold EqualButBreaks at hforget
  rw [List.map_singleton, List.map_singleton, List.singleton_inj] at hforget
  cases a <;> cases b <;> simp_all

theorem equalButBreaks_cons {a b : ParsedEntry} {as bs : List ParsedEntry} :
    EqualButBreaks (a :: as) (b :: bs) ↔ EqualButBreaks [a] [b] ∧ EqualButBreaks as bs := by
  simp [EqualButBreaks]

theorem keys_inj {as bs : List ParsedEntry} :
    as.map ParsedEntry.key = bs.map ParsedEntry.key ↔ EqualButBreaks as bs := by
  induction as generalizing bs with
  | nil => cases bs <;> simp [EqualButBreaks]
  | cons a as ih =>
      cases bs with
      | nil => simp [EqualButBreaks]
      | cons b bs =>
          rw [List.map_cons, List.map_cons, List.cons.injEq, ParsedEntry.key_inj, ih]
          exact equalButBreaks_cons.symm

/-- Two templates have the same key if their entries are the same but for the flags of breaks. -/
theorem templateKey_inj {a b : ParsedTrampoline} :
    templateKey a = templateKey b ↔ EqualButBreaks a.entries b.entries := by
  unfold templateKey
  rw [List.cons.injEq, keys_inj]
  refine ⟨fun h => h.2, fun h => ⟨?_, h⟩⟩
  have hlen := congrArg List.length h
  rw [List.length_map, List.length_map] at hlen
  rw [hlen]

/-! ### Null labels -/

theorem NullLabels.symm {a b : ParsedEntry} (h : NullLabels a b) : NullLabels b a := ⟨h.1.symm, h.2.symm⟩

theorem NullLabels.congr {a b c : ParsedEntry} (h : NullLabels a c) (hkey : a.key = b.key) : NullLabels b c := by
  obtain ⟨hkind, hnone⟩ := ParsedEntry.key_kind hkey
  exact ⟨hkind.symm.trans h.1, h.2.imp_left hnone.mp⟩

theorem NullMeets.symm {as bs : List ParsedEntry} (h : NullMeets as bs) : NullMeets bs as := by
  induction as generalizing bs with
  | nil => exact h.elim
  | cons a as ih =>
      cases bs with
      | nil => exact h.elim
      | cons b bs =>
          rcases h with h | ⟨heq, h⟩
          · exact Or.inl h.symm
          · exact Or.inr ⟨Eq.symm heq, ih h⟩

theorem NullMeets.congr {as bs cs : List ParsedEntry} (h : NullMeets as cs) (heq : EqualButBreaks as bs) :
    NullMeets bs cs := by
  induction as generalizing bs cs with
  | nil => exact h.elim
  | cons a as ih =>
      cases cs with
      | nil => exact h.elim
      | cons c cs =>
          cases bs with
          | nil => exact absurd (congrArg List.length heq) (by simp)
          | cons b bs =>
              obtain ⟨hab, heq⟩ := equalButBreaks_cons.mp heq
              rcases h with h | ⟨hac, h⟩
              · exact Or.inl (h.congr (ParsedEntry.key_inj.mpr hab))
              · exact Or.inr ⟨Eq.trans (Eq.symm hab) hac, ih h heq⟩

/-- A template meets a null label in itself if it has one. -/
theorem nullMeets_self {as : List ParsedEntry} : NullMeets as as ↔ none ∈ as := by
  induction as with
  | nil => simp [NullMeets]
  | cons a as ih =>
      rw [NullMeets, ih, List.mem_cons]
      simp [NullLabels, EqualButBreaks, eq_comm]

/-- Templates that meet a null label have one. -/
theorem NullMeets.mem {as bs : List ParsedEntry} (h : NullMeets as bs) : none ∈ as ∨ none ∈ bs := by
  induction as generalizing bs with
  | nil => exact h.elim
  | cons a as ih =>
      cases bs with
      | nil => exact h.elim
      | cons b bs =>
          rcases h with ⟨-, rfl | rfl⟩ | ⟨-, h⟩
          · exact Or.inl List.mem_cons_self
          · exact Or.inr List.mem_cons_self
          · exact (ih h).imp (List.mem_cons_of_mem _) (List.mem_cons_of_mem _)

/-- The entries that meet a null label in `as` have the same kinds and payloads up to it, so that what is less than some
of them and does not meet it is less than all. -/
theorem NullMeets.below {as bs cs : List ParsedEntry} (h : NullMeets as bs) (hcs : ¬NullMeets as cs)
    (hlen : as.length = cs.length) (hlt : cs.map ParsedEntry.key < bs.map ParsedEntry.key) :
    cs.map ParsedEntry.key < as.map ParsedEntry.key := by
  induction as generalizing bs cs with
  | nil => exact h.elim
  | cons a as ih =>
      cases bs with
      | nil => exact h.elim
      | cons b bs =>
          cases cs with
          | nil => cases hlen
          | cons c cs =>
              rw [List.map_cons, List.map_cons, List.cons_lt_cons_iff] at hlt ⊢
              obtain ⟨hac, hcs⟩ := not_or.mp hcs
              rcases h with ⟨hkind, hnull⟩ | ⟨hab, h⟩
              · -- the label of `a` or that of `b` is null; `c` is not a label
                left
                apply ParsedEntry.key_lt
                have hle : c.kind ≤ b.kind := by
                  rcases hlt with hlt | ⟨heq, -⟩
                  · rw [c.key_eq, b.key_eq, List.cons_lt_cons_iff] at hlt
                    omega
                  · exact Nat.le_of_eq (ParsedEntry.key_kind heq).1
                refine Nat.lt_of_le_of_ne (hkind ▸ hle) fun hca => ?_
                rcases hnull with rfl | rfl
                · exact hac ⟨hca.symm, Or.inl rfl⟩
                · have hnone : c = none := by
                    rcases hlt with hlt | ⟨heq, -⟩
                    · rw [c.key_eq, hca, hkind] at hlt
                      rcases List.cons_lt_cons_iff.mp hlt with hlt | ⟨-, hlt⟩
                      · exact absurd hlt (lt_irrefl _)
                      · exact absurd hlt (List.not_lt_nil _)
                    · exact (ParsedEntry.key_kind heq).2.mpr rfl
                  exact hac ⟨hca.symm, Or.inr hnone⟩
              · rcases hlt with hlt | ⟨heq, hlt⟩
                · exact Or.inl ((ParsedEntry.key_inj.mpr hab).symm ▸ hlt)
                · have hkey : c.key = a.key := heq.trans (ParsedEntry.key_inj.mpr hab).symm
                  refine Or.inr ⟨hkey, ih h (fun hmeet => hcs ⟨?_, hmeet⟩) (Nat.succ.inj hlen) hlt⟩
                  exact ParsedEntry.key_inj.mp hkey.symm

/-! ### The comparison of templates -/

theorem compareLoop_null {as bs : List ParsedEntry} (h : NullMeets as bs) : compareLoop as bs = .error .null := by
  induction as generalizing bs with
  | nil => exact h.elim
  | cons a as ih =>
      cases bs with
      | nil => exact h.elim
      | cons b bs =>
          rw [compareLoop]
          by_cases hnull : NullLabels a b
          · rw [compareEntries_null hnull]
            rfl
          · obtain ⟨heq, h⟩ := h.resolve_left hnull
            obtain ⟨r, hr, hspec⟩ := compareEntries_spec hnull
            have hkey := ParsedEntry.key_inj.mpr heq
            rcases hspec with ⟨rfl, -⟩ | ⟨-, hlt⟩ | ⟨-, hlt⟩
            · rw [hr]
              exact ih h
            · rw [hkey] at hlt
              exact absurd hlt (lt_irrefl _)
            · rw [hkey] at hlt
              exact absurd hlt (lt_irrefl _)

/-- The loop compares the keys of the entries in their order. -/
theorem compareLoop_spec {as bs : List ParsedEntry} (hlen : as.length = bs.length) (h : ¬NullMeets as bs) :
    compareLoop as bs = .ok (decide (as.map ParsedEntry.key < bs.map ParsedEntry.key)) := by
  induction as generalizing bs with
  | nil =>
      obtain rfl : bs = [] := List.eq_nil_of_length_eq_zero hlen.symm
      simp [compareLoop]
  | cons a as ih =>
      cases bs with
      | nil => cases hlen
      | cons b bs =>
          obtain ⟨hnull, h⟩ := not_or.mp h
          obtain ⟨r, hr, hspec⟩ := compareEntries_spec hnull
          rw [compareLoop, hr]
          simp only [List.map_cons, List.cons_lt_cons_iff]
          rcases hspec with ⟨rfl, heq⟩ | ⟨rfl, hlt⟩ | ⟨rfl, hgt⟩
          · show compareLoop as bs = _
            rw [ih (Nat.succ.inj hlen) fun hmeet => h ⟨ParsedEntry.key_inj.mp heq, hmeet⟩]
            simp [heq]
          · simp [hlt, Bind.bind, Except.bind]
          · have hne : ¬a.key < b.key := lt_asymm hgt
            have hne' : a.key ≠ b.key := fun heq => lt_irrefl _ (heq ▸ hgt)
            simp [hne, hne', Bind.bind, Except.bind]

/-- The order of the keys. -/
def lessTrampoline (a b : ParsedTrampoline) : Bool := templateKey a < templateKey b

theorem TrampolineCmp_null {a b : ParsedTrampoline} (h : ReadsNull a.entries b.entries) :
    TrampolineCmp a b = .error .null := by
  rw [TrampolineCmp, if_neg fun hne => hne h.1]
  exact compareLoop_null h.2

theorem TrampolineCmp_spec {a b : ParsedTrampoline} (h : ¬ReadsNull a.entries b.entries) :
    TrampolineCmp a b = .ok (lessTrampoline a b) := by
  unfold TrampolineCmp lessTrampoline templateKey
  simp only [List.cons_lt_cons_iff]
  by_cases hlen : a.entries.length = b.entries.length
  · rw [if_neg fun hne => hne hlen, compareLoop_spec hlen fun hmeet => h ⟨hlen, hmeet⟩]
    simp [hlen]
  · rw [if_pos hlen]
    simp [hlen]

theorem lessTrampoline_iff (a b : ParsedTrampoline) : lessTrampoline a b = true ↔ templateKey a < templateKey b :=
  decide_eq_true_iff

/-- Templates without null labels are compared. -/
theorem TrampolineCmp_named {a b : ParsedTrampoline} (ha : a.Named) (hb : b.Named) :
    TrampolineCmp a b = .ok (lessTrampoline a b) :=
  TrampolineCmp_spec fun h => h.2.mem.elim ha hb

instance : IsStrictWeakOrder ParsedTrampoline (fun a b => lessTrampoline a b = true) :=
  OrderedSet.strictWeakOrder_of_key templateKey lessTrampoline_iff

theorem equiv_iff_equalButBreaks {a b : ParsedTrampoline} :
    OrderedSet.equiv lessTrampoline a b = true ↔ EqualButBreaks a.entries b.entries := by
  rw [OrderedSet.equiv_iff_key lessTrampoline_iff, templateKey_inj]

/-- The comparison is the order of the keys, but for templates that meet a null label. -/
theorem TrampolineCmp_failsOn :
    OrderedSet.FailsOn TrampolineCmp lessTrampoline (fun a b => ReadsNull a.entries b.entries) Fault.null where
  fails := TrampolineCmp_null
  returns := TrampolineCmp_spec
  symm h := ⟨h.1.symm, h.2.symm⟩
  below := by
    rintro x y z ⟨hlen, hmeet⟩ hxz hlt
    have hkeys := of_decide_eq_true hlt
    refine decide_eq_true ?_
    unfold templateKey at hkeys ⊢
    rw [List.cons_lt_cons_iff] at hkeys ⊢
    rw [hlen]
    refine hkeys.imp_right fun hz => ⟨hz.1, ?_⟩
    have hlen' : x.entries.length = z.entries.length := hlen.trans (List.singleton_inj.mp hz.1).symm
    exact hmeet.below (fun h => hxz ⟨hlen', h⟩) hlen' hz.2
  congr := by
    rintro x y z heq ⟨hlen, hmeet⟩
    have heq' := equiv_iff_equalButBreaks.mp heq
    have hlen' : x.entries.length = y.entries.length := by
      have := congrArg List.length heq'
      rwa [List.length_map, List.length_map] at this
    exact ⟨hlen'.symm.trans hlen, hmeet.congr heq'⟩

/-! ### Caches without null labels -/

/-- A cache of templates whose labels all have a name. -/
def CacheNamed (cache : List ParsedTrampoline) : Prop := ∀ T ∈ cache, T.Named

/-- The template for entries that the order finds in the cache, and the cache. -/
def shareTemplate (cache : List ParsedTrampoline) (entries : List ParsedEntry) :
    ParsedTrampoline × List ParsedTrampoline :=
  (OrderedSet.insert lessTrampoline cache (newTrampoline entries)).swap

theorem dupTrampoline_named {cache : List ParsedTrampoline} (h : CacheNamed cache) {entries : List ParsedEntry}
    (hentries : none ∉ entries) : dupTrampoline cache entries = .ok (shareTemplate cache entries) := by
  rw [dupTrampoline, TrampolineCmp_failsOn.tryInsert_ok fun T hT hnull => hnull.2.mem.elim hentries (h T hT)]
  rfl

theorem CacheNamed.share {cache : List ParsedTrampoline} (h : CacheNamed cache) {entries : List ParsedEntry}
    (hentries : none ∉ entries) : CacheNamed (shareTemplate cache entries).2 := by
  intro T hT
  rcases OrderedSet.mem_insert hT with rfl | hT
  · exact hentries
  · exact h T hT

/-! ### Sharing -/

theorem dupAll_eq (parsed : List (List ParsedEntry)) :
    dupAll parsed = OrderedSet.tryBuild TrampolineCmp (parsed.map newTrampoline) := by
  rw [dupAll, OrderedSet.tryBuild, List.foldlM_map]
  congr 1
  funext cache entries
  rw [dupTrampoline]
  cases OrderedSet.tryInsert TrampolineCmp cache (newTrampoline entries) <;> rfl

/-- What is returned for entries that are parsed behind others. -/
def dupLast (parsed : List (List ParsedEntry)) (entries : List ParsedEntry) : Except Fault ParsedTrampoline := do
  let cache ← dupAll parsed
  let r ← dupTrampoline cache entries
  .ok r.1

/-- The template that is shared is that of the first entries which differ in the flags of breaks at most. -/
theorem dupLast_first (parsed : List (List ParsedEntry)) (entries : List ParsedEntry) (T : ParsedTrampoline) :
    dupLast parsed entries = .ok T ↔
      (parsed ++ [entries]).Pairwise (fun a b => ¬ReadsNull a b) ∧
        ((parsed ++ [entries]).find? fun e => EqualButBreaks entries e).map newTrampoline = some T := by
  have hsearch : ((parsed ++ [entries]).find? fun e => EqualButBreaks entries e).map newTrampoline =
      some (OrderedSet.insert lessTrampoline (OrderedSet.build lessTrampoline (parsed.map newTrampoline))
        (newTrampoline entries)).2 := by
    have hset := @OrderedSet.insert_build _ lessTrampoline _ (parsed.map newTrampoline) (newTrampoline entries)
    rw [← hset, ← List.map_singleton, ← List.map_append, List.find?_map]
    congr 2
    funext e
    rw [Function.comp_apply, Bool.eq_iff_iff, decide_eq_true_eq, equiv_iff_equalButBreaks]
    rfl
  have hinsert : dupLast parsed entries = .ok T ↔ ∃ s,
      ((OrderedSet.tryBuild TrampolineCmp (parsed.map newTrampoline)).bind fun cache =>
        OrderedSet.tryInsert TrampolineCmp cache (newTrampoline entries)) = .ok (s, T) := by
    unfold dupLast dupTrampoline
    rw [dupAll_eq]
    cases OrderedSet.tryBuild TrampolineCmp (parsed.map newTrampoline) with
    | error f => simp [Bind.bind, Except.bind]
    | ok cache =>
        show ((OrderedSet.tryInsert TrampolineCmp cache (newTrampoline entries)).map Prod.swap >>= _) = _ ↔
          ∃ s, OrderedSet.tryInsert TrampolineCmp cache (newTrampoline entries) = _
        cases OrderedSet.tryInsert TrampolineCmp cache (newTrampoline entries) with
        | error f => simp [Bind.bind, Except.bind, Except.map]
        | ok r =>
            obtain ⟨s, U⟩ := r
            simp [Bind.bind, Except.bind, Except.map]
  rw [hinsert, hsearch, Option.some_inj]
  simp only [TrampolineCmp_failsOn.tryInsert_tryBuild, ← List.map_singleton, ← List.map_append]
  rw [exists_and_left, List.pairwise_map]
  refine and_congr Iff.rfl ⟨fun ⟨s, hs⟩ => by rw [hs], fun hT => ⟨_, Prod.ext rfl hT⟩⟩

/-- **Template deduplication.** The comparison of some templates always returns and is a strict weak order exactly if
their labels all have a name. Two templates are compared, and equivalent exactly if they are equal, exactly if the
comparison does not come to a null label and they are the same once they are but for the flags of breaks. After any
templates were parsed, the one that is returned for new entries has these entries, protections and no preloading exactly
if no two of the templates meet in a null label, and the new entries are the first of the templates that differ from
them in the flags of breaks at most. -/
theorem templates_shared (S : Set ParsedTrampoline) (a b : List ParsedEntry) (parsed : List (List ParsedEntry))
    (entries : List ParsedEntry) :
    (((∀ T ∈ S, ∀ U ∈ S, ∃ r, TrampolineCmp T U = .ok r) ∧
        IsStrictWeakOrder S (fun T U => TrampolineCmp T U = .ok true)) ↔ ∀ T ∈ S, T.Named) ∧
    ((∃ less greater, TrampolineCmp (newTrampoline a) (newTrampoline b) = .ok less ∧
        TrampolineCmp (newTrampoline b) (newTrampoline a) = .ok greater ∧
        (less = false ∧ greater = false ↔ newTrampoline a = newTrampoline b)) ↔
      ¬ReadsNull a b ∧ (EqualButBreaks a b → a = b)) ∧
    (dupLast parsed entries = .ok (newTrampoline entries) ↔
      (parsed ++ [entries]).Pairwise (fun a b => ¬ReadsNull a b) ∧
        (parsed ++ [entries]).find? (fun e => EqualButBreaks entries e) = some entries) := by
  have hnew : ∀ {a b}, newTrampoline a = newTrampoline b ↔ a = b :=
    ⟨fun h => congrArg ParsedTrampoline.entries h, fun h => by rw [h]⟩
  refine ⟨⟨fun h T hT hnull => ?_, fun h => ⟨fun T hT U hU => ⟨_, TrampolineCmp_named (h T hT) (h U hU)⟩, ?_⟩⟩, ?_, ?_⟩
  · obtain ⟨r, hr⟩ := h.1 T hT T hT
    rw [TrampolineCmp_null ⟨rfl, nullMeets_self.mpr hnull⟩] at hr
    cases hr
  · have hless : ∀ T U : S, TrampolineCmp T U = .ok true ↔ lessTrampoline T U = true := fun T U => by
      rw [TrampolineCmp_named (h T T.2) (h U U.2), Except.ok.injEq]
    simp only [hless]
    exact OrderedSet.strictWeakOrder_of_key (fun T : S => templateKey T) fun T U => lessTrampoline_iff T U
  · have hsymm : ReadsNull a b ↔ ReadsNull b a := ⟨TrampolineCmp_failsOn.symm (a := newTrampoline a) (b := newTrampoline b),
      TrampolineCmp_failsOn.symm (a := newTrampoline b) (b := newTrampoline a)⟩
    by_cases hnull : ReadsNull a b
    · rw [TrampolineCmp_null hnull]
      exact ⟨nofun, fun h => absurd hnull h.1⟩
    · rw [TrampolineCmp_spec hnull, TrampolineCmp_spec (mt hsymm.mpr hnull)]
      have hequiv : lessTrampoline (newTrampoline a) (newTrampoline b) = false ∧
          lessTrampoline (newTrampoline b) (newTrampoline a) = false ↔ EqualButBreaks a b := by
        rw [← Bool.not_eq_true, ← Bool.not_eq_true, ← OrderedSet.equiv_iff, equiv_iff_equalButBreaks]
        rfl
      simp only [Except.ok.injEq, hnew]
      constructor
      · rintro ⟨less, greater, rfl, rfl, h⟩
        exact ⟨hnull, (hequiv.symm.trans h).mp⟩
      · rintro ⟨-, h⟩
        exact ⟨_, _, rfl, rfl, hequiv.trans ⟨h, fun heq => by rw [heq]; rfl⟩⟩
  · rw [dupLast_first]
    refine and_congr Iff.rfl ⟨fun h => ?_, fun h => by rw [h]; rfl⟩
    obtain ⟨e, he, heq⟩ := Option.map_eq_some_iff.mp h
    rw [he, hnew.mp heq]

/-- Two templates from their texts, one after the other. -/
def parseTwo (first second : String) : Except ParseError (ParsedTrampoline × ParsedTrampoline) := do
  let r ← parseTemplate ⟨ascii first, 1, none⟩ false []
  let s ← parseTemplate ⟨ascii second, 1, none⟩ false r.1.2
  .ok (r.1.1, s.1.1)

/-- A template with `$BREAK` becomes the earlier one with `$break`, and a template with a null label cannot be compared
with itself. -/
theorem break_flag_lost :
    (parseTwo "[\"$instr\",\"$break\"]" "[\"$instr\",\"$BREAK\"]").toOption =
      some (newTrampoline [some .INSTR, some (.BREAK false)], newTrampoline [some .INSTR, some (.BREAK false)]) ∧
    (parseTemplate ⟨ascii "[\"$instr\",\"$BREAK\"]", 1, none⟩ false []).toOption.map (·.1.1) =
      some (newTrampoline [some .INSTR, some (.BREAK true)]) ∧
    dupLast [[some .INSTR, some (.BREAK false)]] [some .INSTR, some (.BREAK true)] ≠
      .ok (newTrampoline [some .INSTR, some (.BREAK true)]) ∧
    parseTwo "[\x7b\"z\":\x7d]" "[\x7b\"z\":\x7d]" = .error ⟨1, .fault .null⟩ := by
  decide +kernel

end E9Patch
