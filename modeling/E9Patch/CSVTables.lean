import E9Patch.AddressLists
import E9Patch.JsonRoundTrip
import E9Patch.OrderedMap

/-!
Tables in CSV files and the lookup of their fields (`e9csv.cpp`), for tables written as RFC 4180 has it. A file
that does not end its last line ends in a comma where the last field is undefined; `parseRecord` then finds no
entry, and the record is dropped. The index of a field is cut to 16 bits.
-/

namespace E9Tool
open E9Patch (isspace strtoull strtoull_hex strtoull_decimal hexText IsInt64 toU64 toU64_abs)
open Bytes Numerals Fallible

set_option maxRecDepth 20000

/-! ### The tables -/

inductive TableError where
  | entry (e : CSVError)
  | notFound
  | invalidLength
  | notAnAddress
  | duplicate (addr : Int)
  deriving DecidableEq, Repr

abbrev Data := List (Int × List Entry)

/-- A size as an `int`. -/
def toInt32 (n : Nat) : Int := Int.bmod n (2 ^ 32)

/-- The loop of `parseCSV`: `length` is the length of the records, negative before the first one. Every record
has a byte at least. -/
def readTable : Nat → Int → Data → List UInt8 → Except TableError Data
  | 0, _, data, _ => .ok data
  | fuel + 1, length, data, stream => do
    let r ← (parseRecord stream).mapError .entry
    if !r.more then .ok data
    else
      let length' := if length < 0 then toInt32 r.record.length else length
      if ¬length < 0 ∧ (r.record.length : Int) % 2 ^ 32 ≠ length % 2 ^ 32 then .error .invalidLength
      else
        match r.record.head? with
        | some (.integer addr) =>
          if (OrderedMap.find data addr).isSome then .error (.duplicate addr)
          else readTable fuel length' (OrderedMap.insert data addr r.record) r.stream
        | _ => .error .notAnAddress

/-- Parse a CSV file. -/
def parseCSV (file : List UInt8) : Except TableError Data := readTable (file.length + 1) (-1) [] file

/-- The tables that were parsed, by the names of their files. -/
abbrev Cache := List (List UInt8 × Data)

/-- The table of a file, parsed at its first use. -/
def cachedTable (files : List UInt8 → Option (List UInt8)) (cache : Cache) (basename : List UInt8) :
    Except TableError (Data × Cache) :=
  match cache.lookup basename with
  | some data => .ok (data, cache)
  | none =>
    match files (basename ++ ascii ".csv") with
    | none => .error .notFound
    | some file => (parseCSV file).map fun data => (data, (basename, data) :: cache)

/-- Lookup a value from a CSV file. -/
def getCSVValue (files : List UInt8 → Option (List UInt8)) (cache : Cache) (addr : Int) (basename : List UInt8)
    (idx : UInt16) : Except TableError (Entry × Cache) :=
  (cachedTable files cache basename).map fun r =>
    match OrderedMap.find r.1 addr with
    | none => (.undefined, r.2)
    | some record => (record.getD idx.toNat .undefined, r.2)

/-- The caches of a run: each lookup starts from the cache that the one before it left. -/
inductive CacheRun (files : List UInt8 → Option (List UInt8)) : Cache → Prop
  | start : CacheRun files []
  | lookup {cache cache' : Cache} {addr : Int} {basename : List UInt8} {idx : UInt16} {value : Entry} :
    CacheRun files cache → getCSVValue files cache addr basename idx = .ok (value, cache') → CacheRun files cache'

/-! ### What is written -/

/-- A quotation mark is doubled. -/
def quoteByte (c : UInt8) : List UInt8 := if c = 0x22 then [0x22, 0x22] else [c]

def isSeparator (c : UInt8) : Bool := c = 0x2c ∨ c = 0x0a ∨ c = 0x0d

/-- The texts of an entry. An integer is in decimal or hexadecimal; a string is between quotation marks unless
it is neither a number nor empty and has no separator and no quotation mark. -/
inductive FieldText : Entry → List UInt8 → Prop
  | undefined : FieldText .undefined []
  | integer {i : Int} {s : List UInt8} : IsInt64 i → s = signedNumeral i ∨ s = hexText i → FieldText (.integer i) s
  | quoted {s : List UInt8} : (∀ c ∈ s, c < 0x80 ∧ c ≠ 0) → FieldText (.string s) (0x22 :: (s.flatMap quoteByte ++ [0x22]))
  | bare {s : List UInt8} : s ≠ [] → (∀ c ∈ s, c < 0x80 ∧ c ≠ 0 ∧ isSeparator c = false ∧ c ≠ 0x22) →
    entryToInt s = none → FieldText (.string s) s

/-- The entries behind the first one, each behind a comma. -/
inductive FieldsText : List Entry → List UInt8 → Prop
  | nil : FieldsText [] []
  | cons {e : Entry} {es : List Entry} {s t : List UInt8} :
    FieldText e s → FieldsText es t → FieldsText (e :: es) (0x2c :: (s ++ t))

/-- A record: its address and the fields behind it. -/
structure Row where
  addr : Int
  fields : List Entry
  deriving DecidableEq, Repr

def Row.record (row : Row) : List Entry := .integer row.addr :: row.fields

def RowText (row : Row) (s : List UInt8) : Prop :=
  ∃ a t, FieldText (.integer row.addr) a ∧ FieldsText row.fields t ∧ s = a ++ t

/-- A line ends in LF or CRLF; the last one may do without. -/
inductive Written : List Row → List UInt8 → Prop
  | nil : Written [] []
  | last {row : Row} {s : List UInt8} : RowText row s → Written [row] s
  | line {row : Row} {rows : List Row} {s eol rest : List UInt8} : RowText row s →
    eol = [0x0a] ∨ eol = [0x0d, 0x0a] → Written rows rest → Written (row :: rows) (s ++ (eol ++ rest))

/-- Records of equal length with distinct addresses. -/
structure Table where
  rows : List Row
  width : Nat
  fields_length : ∀ row ∈ rows, row.fields.length = width
  addrs : (rows.map Row.addr).Nodup

/-- Field `k` of the record of an address. -/
def Table.field (table : Table) (addr k : Int) : Entry :=
  match table.rows.find? fun row => row.addr = addr with
  | none => .undefined
  | some row => if 0 ≤ k then row.record.getD k.toNat .undefined else .undefined

/-! ### Integers -/

/-- The text of an integer behind its sign. -/
structure IntegerBody (i : Int) (body : List UInt8) : Prop where
  head : ∃ c t, body = c :: t ∧ isDigit 10 c = true
  bytes : ∀ c ∈ body, c = 0x78 ∨ isDigit 16 c = true
  value : strtoull body (if body.take 2 = ascii "0x" then 16 else 10) = (i.natAbs, [], false)

theorem decimal_body {i : Int} (hi : i.natAbs < 2 ^ 64) : IntegerBody i (numeral 10 i.natAbs) := by
  have hdigits : ∀ c ∈ numeral 10 i.natAbs, isDigit 10 c = true := numeral_digits (by decide) (by decide) i.natAbs
  have hwider : ∀ c, isDigit 10 c = true → isDigit 16 c = true := by decide
  obtain ⟨c, t, hnum⟩ := List.exists_cons_of_ne_nil (numeral_ne_nil 10 i.natAbs)
  refine ⟨⟨c, t, hnum, hdigits c (hnum ▸ List.mem_cons_self)⟩, fun c hc => Or.inr (hwider c (hdigits c hc)), ?_⟩
  have hbase : ¬(numeral 10 i.natAbs).take 2 = ascii "0x" := by
    intro h
    have hx : (0x78 : UInt8) ∈ (numeral 10 i.natAbs).take 2 := by
      rw [h]
      decide
    exact absurd (hdigits _ (List.mem_of_mem_take hx)) (by decide)
  rw [if_neg hbase]
  exact strtoull_decimal hi

theorem hex_body {i : Int} (hi : i.natAbs < 2 ^ 64) : IntegerBody i (ascii "0x" ++ numeral 16 i.natAbs) := by
  refine ⟨⟨0x30, 0x78 :: numeral 16 i.natAbs, rfl, by decide⟩, fun c hc => ?_, strtoull_hex hi⟩
  rcases List.mem_append.mp hc with hc | hc
  · exact (by decide : ∀ c ∈ ascii "0x", c = 0x78 ∨ isDigit 16 c = true) c hc
  · exact Or.inr (numeral_digits (by decide) (by decide) _ c hc)

theorem integer_text {i : Int} {s : List UInt8} (hi : IsInt64 i) (hs : s = signedNumeral i ∨ s = hexText i) :
    ∃ body, IntegerBody i body ∧ s = (if i < 0 then [0x2d] else []) ++ body := by
  have habs : i.natAbs < 2 ^ 64 := by
    simp only [IsInt64, E9Patch.INTPTR_MIN, E9Patch.INTPTR_MAX] at hi
    omega
  rcases hs with rfl | rfl
  · refine ⟨_, decimal_body habs, ?_⟩
    rw [signedNumeral]
    split_ifs with h
    · rw [show (-i).toNat = i.natAbs by omega]
      rfl
    · rw [show i.toNat = i.natAbs by omega]
      rfl
  · refine ⟨_, hex_body habs, ?_⟩
    have hvalue := (toU64_abs hi).1
    rw [hexText, show toU64 (if i < 0 then -i else i) = i.natAbs by split_ifs at hvalue ⊢ <;> omega]

/-- The bytes of an integer are no separators, no spaces and no quotation marks. -/
theorem integer_bytes {i : Int} {body : List UInt8} (h : IntegerBody i body) :
    ∀ c ∈ (if i < 0 then [0x2d] else []) ++ body,
      c < 0x80 ∧ c ≠ 0 ∧ isSeparator c = false ∧ c ≠ 0x22 ∧ isspace c = false := by
  have hbyte : ∀ c : UInt8, c = 0x2d ∨ c = 0x78 ∨ isDigit 16 c = true →
      c < 0x80 ∧ c ≠ 0 ∧ isSeparator c = false ∧ c ≠ 0x22 ∧ isspace c = false := by decide
  intro c hc
  rcases List.mem_append.mp hc with hc | hc
  · split_ifs at hc
    · exact hbyte c (Or.inl (List.mem_singleton.mp hc))
    · cases hc
  · exact hbyte c (Or.inr (h.bytes c hc))

/-- A number with its sign, in 64 bits. -/
theorem signed64_abs {i : Int} (hi : IsInt64 i) :
    (if i < 0 then signed64 (-signed64 i.natAbs) else signed64 i.natAbs) = i := by
  simp only [IsInt64, E9Patch.INTPTR_MIN, E9Patch.INTPTR_MAX] at hi
  unfold signed64
  split_ifs <;> omega

/-- An integer is read back. -/
theorem entryToInt_text {i : Int} (hi : IsInt64 i) {body : List UInt8} (h : IntegerBody i body) :
    entryToInt ((if i < 0 then [0x2d] else []) ++ body) = some i := by
  obtain ⟨c, t, hcons, hc⟩ := h.head
  have hzero : ((if i < 0 then [0x2d] else []) ++ body).takeWhile (· ≠ 0) = (if i < 0 then [0x2d] else []) ++ body :=
    List.takeWhile_eq_self_iff.mpr fun c hc => decide_eq_true (integer_bytes h c hc).2.1
  have hspace : ((if i < 0 then [0x2d] else []) ++ body).dropWhile isspace = (if i < 0 then [0x2d] else []) ++ body := by
    refine List.dropWhile_eq_self_iff.mpr fun hlen => ?_
    rw [(integer_bytes h _ (List.getElem_mem hlen)).2.2.2.2]
    exact Bool.false_ne_true
  have hend : ¬(0 = body.length ∨ ([] : List UInt8).dropWhile isspace ≠ []) := by
    rw [hcons, List.length_cons]
    rintro (h | h)
    · omega
    · exact h rfl
  have hsigned := signed64_abs hi
  unfold entryToInt
  rw [hzero, hspace]
  by_cases hneg : i < 0
  · rw [if_pos hneg] at hsigned ⊢
    simp only [List.singleton_append, List.head?_cons, List.tail_cons, true_or, if_true, h.value, List.length_nil]
    rw [if_neg hend, hsigned]
  · have hsign : ∀ c, isDigit 10 c = true → ¬some c = some 0x2d ∧ ¬some c = some 0x2b := by decide
    have hhead : ¬body.head? = some 0x2d ∧ ¬body.head? = some 0x2b := by
      rw [hcons]
      exact hsign c hc
    rw [if_neg hneg] at hsigned ⊢
    simp only [List.nil_append, hhead.1, hhead.2, or_self, if_false, h.value, List.length_nil]
    rw [if_neg hend, hsigned]

/-! ### Entries -/

/-- What stands behind an entry: nothing, a comma or the end of the line. -/
def Delimited (rest : List UInt8) : Prop := ∀ c ∈ rest.head?, isSeparator c = true

theorem separator_iff {c : UInt8} : isSeparator c = true ↔ c = 0x2c ∨ c = 0x0a ∨ c = 0x0d := decide_eq_true_iff

theorem separator_ascii {c : UInt8} (h : isSeparator c = true) : c < 0x80 ∧ c ≠ 0x22 := by
  rcases separator_iff.mp h with rfl | rfl | rfl <;> decide

theorem parseBare_text {s rest : List UInt8} (hs : ∀ c ∈ s, c < 0x80 ∧ isSeparator c = false) (hrest : Delimited rest)
    (entry : List UInt8) : parseBare entry (s ++ rest) = .ok (entry ++ s, rest) := by
  induction s generalizing entry with
  | nil =>
      rw [List.nil_append, List.append_nil]
      cases rest with
      | nil => rfl
      | cons c rest =>
          have hc := hrest c rfl
          rw [parseBare, if_neg (not_not.mpr (separator_ascii hc).1), if_pos (separator_iff.mp hc)]
  | cons c s ih =>
      obtain ⟨hascii, hsep⟩ := hs c List.mem_cons_self
      have hsep' : ¬(c = 0x2c ∨ c = 0x0a ∨ c = 0x0d) := fun h => Bool.false_ne_true (hsep.symm.trans (separator_iff.mpr h))
      rw [List.cons_append, parseBare, if_neg (not_not.mpr hascii), if_neg hsep',
        ih fun d hd => hs d (List.mem_cons_of_mem c hd), List.append_assoc]
      rfl

/-- The quotation mark at the end is the first one that no other follows. -/
theorem parseQuoted_text {s rest : List UInt8} (hs : ∀ c ∈ s, c < 0x80) (hrest : Delimited rest) (entry : List UInt8) :
    parseQuoted entry (s.flatMap quoteByte ++ 0x22 :: rest) = .ok (entry ++ s, rest) := by
  induction s generalizing entry with
  | nil =>
      rw [List.flatMap_nil, List.nil_append, List.append_nil]
      cases rest with
      | nil => rw [parseQuoted, if_neg (by decide), if_pos rfl]
      | cons c rest =>
          obtain ⟨hascii, hquote⟩ := separator_ascii (hrest c rfl)
          rw [parseQuoted, if_neg (by decide), if_pos rfl, if_neg (not_not.mpr hascii), if_neg hquote]
  | cons c s ih =>
      have hascii := hs c List.mem_cons_self
      have hih := ih (fun d hd => hs d (List.mem_cons_of_mem c hd)) (entry ++ [c])
      rw [List.append_assoc] at hih
      rw [List.flatMap_cons]
      by_cases hquote : c = 0x22
      · subst hquote
        show parseQuoted entry (0x22 :: 0x22 :: (s.flatMap quoteByte ++ 0x22 :: rest)) = _
        rw [parseQuoted, if_neg (by decide), if_pos rfl, if_neg (by decide), if_pos rfl, hih]
        rfl
      · rw [quoteByte, if_neg hquote]
        show parseQuoted entry (c :: (s.flatMap quoteByte ++ 0x22 :: rest)) = _
        rw [parseQuoted.eq_def]
        simp only
        rw [if_neg (not_not.mpr hascii), if_neg hquote, hih]
        rfl

theorem cString_text {s : List UInt8} (hs : ∀ c ∈ s, c ≠ 0) : s.takeWhile (· ≠ 0) = s :=
  List.takeWhile_eq_self_iff.mpr fun c hc => decide_eq_true (hs c hc)

/-- An entry without quotation marks is what its bytes are as an integer, or else a string. -/
theorem parseEntry_bare {s rest : List UInt8} (hne : s ≠ [])
    (hs : ∀ c ∈ s, c < 0x80 ∧ c ≠ 0 ∧ isSeparator c = false ∧ c ≠ 0x22) (hrest : Delimited rest) :
    parseEntry (s ++ rest) = .ok (some (match entryToInt s with
      | some x => .integer x
      | none => .string s, rest)) := by
  obtain ⟨c, s', rfl⟩ := List.exists_cons_of_ne_nil hne
  obtain ⟨hascii, -, hsep, hquote⟩ := hs c List.mem_cons_self
  have hsep' : ¬(c = 0x0d ∨ c = 0x0a ∨ c = 0x2c) := fun h =>
    Bool.false_ne_true (hsep.symm.trans (separator_iff.mpr (by tauto)))
  have hbare := parseBare_text (fun d hd => ⟨(hs d (List.mem_cons_of_mem c hd)).1,
    (hs d (List.mem_cons_of_mem c hd)).2.2.1⟩) hrest [c]
  rw [List.cons_append, parseEntry, if_neg (not_not.mpr hascii), if_neg hsep', if_neg hquote, hbare]
  show Except.ok (some (match entryToInt (c :: s') with
      | some x => Entry.integer x
      | none => .string ((c :: s').takeWhile (· ≠ 0)), rest)) = _
  rw [cString_text fun d hd => (hs d hd).2.1]

/-- An entry is read back, with whatever stands behind it; of the empty one this has to be something. -/
theorem parseEntry_text {e : Entry} {s rest : List UInt8} (h : FieldText e s) (hrest : Delimited rest)
    (hne : s ++ rest ≠ []) : parseEntry (s ++ rest) = .ok (some (e, rest)) := by
  cases h with
  | undefined =>
      obtain ⟨c, rest', rfl⟩ := List.exists_cons_of_ne_nil hne
      have hc := hrest c rfl
      have hsep : c = 0x0d ∨ c = 0x0a ∨ c = 0x2c := by
        have := separator_iff.mp hc
        tauto
      rw [List.nil_append, parseEntry, if_neg (not_not.mpr (separator_ascii hc).1), if_pos hsep]
  | integer hi hs =>
      obtain ⟨body, hbody, rfl⟩ := integer_text hi hs
      obtain ⟨c, t, hcons, -⟩ := hbody.head
      have hbytes := integer_bytes hbody
      rw [parseEntry_bare (by simp [hcons]) (fun c hc => ⟨(hbytes c hc).1, (hbytes c hc).2.1, (hbytes c hc).2.2.1,
        (hbytes c hc).2.2.2.1⟩) hrest, entryToInt_text hi hbody]
  | quoted hs =>
      rename_i s
      rw [List.cons_append, parseEntry, if_neg (by decide), if_neg (by decide), if_pos rfl, List.append_assoc,
        List.singleton_append, parseQuoted_text (fun c hc => (hs c hc).1) hrest []]
      show Except.ok (some (Entry.string (s.takeWhile (· ≠ 0)), rest)) = _
      rw [cString_text fun c hc => (hs c hc).2]
  | bare hne' hs hint => rw [parseEntry_bare hne' hs hrest, hint]

/-! ### Records -/

/-- A file that breaks off behind a comma. -/
def EndsInComma (s : List UInt8) : Prop := s.getLast? = some 0x2c

instance (s : List UInt8) : Decidable (EndsInComma s) := inferInstanceAs (Decidable (_ = _))

theorem endsInComma_append {s t : List UInt8} (ht : t ≠ []) : EndsInComma (s ++ t) ↔ EndsInComma t := by
  rw [EndsInComma, EndsInComma, List.getLast?_append_of_ne_nil s ht]

/-- No entry ends in a comma. -/
theorem FieldText.not_endsInComma {e : Entry} {s : List UInt8} (h : FieldText e s) : ¬EndsInComma s := by
  have hsep : ∀ s : List UInt8, (∀ c ∈ s, isSeparator c = false) → ¬EndsInComma s := fun s hs hlast =>
    absurd (hs 0x2c (List.mem_of_getLast? hlast)) (by decide)
  cases h with
  | undefined => exact nofun
  | integer hi hs =>
      obtain ⟨body, hbody, rfl⟩ := integer_text hi hs
      exact hsep _ fun c hc => (integer_bytes hbody c hc).2.2.1
  | quoted hs =>
      rw [← List.cons_append, endsInComma_append (List.cons_ne_nil _ _)]
      decide
  | bare hne hs hint => exact hsep s fun c hc => (hs c hc).2.2.1

theorem FieldText.integer_ne_nil {i : Int} {s : List UInt8} (h : FieldText (.integer i) s) : s ≠ [] := by
  cases h with
  | integer hi hs =>
      obtain ⟨body, hbody, rfl⟩ := integer_text hi hs
      obtain ⟨c, t, hcons, -⟩ := hbody.head
      simp [hcons]

theorem FieldsText.delimited {es : List Entry} {t rest : List UInt8} (h : FieldsText es t) (hrest : Delimited rest) :
    Delimited (t ++ rest) := by
  cases h with
  | nil => exact hrest
  | cons he hes =>
      rintro c ⟨⟩
      rfl

/-- The entries up to the end of the line, whose bytes are taken. -/
theorem parseFields_line {es : List Entry} {t eol more : List UInt8} (h : FieldsText es t)
    (heol : eol = [0x0a] ∨ eol = [0x0d, 0x0a]) {fuel : Nat} (hfuel : t.length < fuel) (record : List Entry) :
    parseFields fuel record (t ++ (eol ++ more)) = .ok ⟨true, record ++ es, more⟩ := by
  induction h generalizing fuel record with
  | nil =>
      obtain ⟨fuel, rfl⟩ := Nat.exists_eq_add_of_lt hfuel
      rw [List.append_nil]
      rcases heol with rfl | rfl <;> rfl
  | @cons e es s t he hes ih =>
      have hdelimited : Delimited (eol ++ more) := by
        rcases heol with rfl | rfl <;> rintro c ⟨⟩ <;> rfl
      have hne : s ++ (t ++ (eol ++ more)) ≠ [] := by
        rcases heol with rfl | rfl <;> simp
      obtain ⟨fuel, rfl⟩ := Nat.exists_eq_succ_of_ne_zero (Nat.ne_zero_of_lt hfuel)
      have hlen : t.length < fuel := by
        rw [List.length_cons, List.length_append] at hfuel
        omega
      have hread := parseEntry_text he (hes.delimited hdelimited) hne
      rw [List.cons_append, List.append_assoc]
      show (parseEntry (s ++ (t ++ (eol ++ more))) >>= _) = _
      rw [hread]
      show parseFields fuel (record ++ [e]) _ = _
      rw [ih hlen, List.append_assoc]
      rfl

/-- The entries up to the end of the file. Behind a comma at the end there is none, and the record is given up. -/
theorem parseFields_end {es : List Entry} {t : List UInt8} (h : FieldsText es t) {fuel : Nat} (hfuel : t.length < fuel)
    (record : List Entry) : ∃ r, parseFields fuel record t = .ok ⟨!decide (EndsInComma t), r, []⟩ ∧
      (¬EndsInComma t → r = record ++ es) := by
  induction h generalizing fuel record with
  | nil =>
      obtain ⟨fuel, rfl⟩ := Nat.exists_eq_add_of_lt hfuel
      exact ⟨record, rfl, fun _ => (List.append_nil record).symm⟩
  | @cons e es s t he hes ih =>
      obtain ⟨fuel, rfl⟩ := Nat.exists_eq_succ_of_ne_zero (Nat.ne_zero_of_lt hfuel)
      have hlen : t.length < fuel := by
        rw [List.length_cons, List.length_append] at hfuel
        omega
      by_cases hnil : s ++ t = []
      · refine ⟨record, ?_, fun h => absurd ?_ h⟩
        · rw [hnil]
          rfl
        · rw [hnil]
          rfl
      · have hend : EndsInComma (0x2c :: (s ++ t)) ↔ EndsInComma t := by
          rw [← List.singleton_append, endsInComma_append hnil]
          by_cases ht : t = []
          · rw [ht, List.append_nil]
            exact iff_of_false he.not_endsInComma nofun
          · exact endsInComma_append ht
        have hdelimited : Delimited (t ++ []) := hes.delimited nofun
        rw [List.append_nil] at hdelimited
        have hread := parseEntry_text he hdelimited hnil
        obtain ⟨r, hr, heq⟩ := ih hlen (record ++ [e])
        refine ⟨r, ?_, fun h => ?_⟩
        · show (parseEntry (s ++ t) >>= _) = _
          rw [hread]
          show parseFields fuel (record ++ [e]) _ = _
          rw [hr]
          simp only [hend]
        · rw [heq fun h' => h (hend.mpr h'), List.append_assoc]
          rfl

theorem RowText.ne_nil {row : Row} {s : List UInt8} (h : RowText row s) : s ≠ [] := by
  obtain ⟨a, t, ha, -, rfl⟩ := h
  exact List.append_ne_nil_of_left_ne_nil ha.integer_ne_nil t

theorem parseRecord_line {row : Row} {s eol more : List UInt8} (h : RowText row s)
    (heol : eol = [0x0a] ∨ eol = [0x0d, 0x0a]) : parseRecord (s ++ (eol ++ more)) = .ok ⟨true, row.record, more⟩ := by
  obtain ⟨a, t, ha, ht, rfl⟩ := h
  have hdelimited : Delimited (eol ++ more) := by
    rcases heol with rfl | rfl <;> rintro c ⟨⟩ <;> rfl
  have hread := parseEntry_text ha (ht.delimited hdelimited) (List.append_ne_nil_of_left_ne_nil ha.integer_ne_nil _)
  rw [List.append_assoc, parseRecord, hread]
  refine parseFields_line ht heol ?_ [.integer row.addr]
  dsimp only
  rw [List.length_append]
  omega

theorem parseRecord_end {row : Row} {s : List UInt8} (h : RowText row s) :
    ∃ r, parseRecord s = .ok ⟨!decide (EndsInComma s), r, []⟩ ∧ (¬EndsInComma s → r = row.record) := by
  obtain ⟨a, t, ha, ht, rfl⟩ := h
  have hdelimited : Delimited (t ++ []) := ht.delimited nofun
  rw [List.append_nil] at hdelimited
  have hread := parseEntry_text ha hdelimited (List.append_ne_nil_of_left_ne_nil ha.integer_ne_nil _)
  have hend : EndsInComma (a ++ t) ↔ EndsInComma t := by
    by_cases hnil : t = []
    · rw [hnil, List.append_nil]
      exact iff_of_false ha.not_endsInComma nofun
    · exact endsInComma_append hnil
  obtain ⟨r, hr, heq⟩ := parseFields_end ht (Nat.lt_succ_self _) [.integer row.addr]
  refine ⟨r, ?_, fun h => heq fun h' => h (hend.mpr h')⟩
  rw [parseRecord, hread]
  show parseFields _ _ _ = _
  rw [hr]
  simp only [hend]

/-! ### Files -/

def recordOf (rows : List Row) (addr : Int) : Option (List Entry) :=
  (rows.find? fun row => row.addr = addr).map Row.record

/-- The records that are read: all but the one that the file breaks off in. -/
def keptRows (rows : List Row) (file : List UInt8) : List Row := if EndsInComma file then rows.dropLast else rows

theorem keptRows_cons {row : Row} {rows : List Row} {s eol rest : List UInt8} (heol : eol = [0x0a] ∨ eol = [0x0d, 0x0a])
    (hrest : Written rows rest) : keptRows (row :: rows) (s ++ (eol ++ rest)) = row :: keptRows rows rest := by
  have hne : eol ≠ [] := by
    rcases heol with rfl | rfl <;> exact List.cons_ne_nil _ _
  unfold keptRows
  by_cases hnil : rest = []
  · have heols : ¬EndsInComma (s ++ (eol ++ rest)) := by
      rw [hnil, List.append_nil, endsInComma_append hne]
      rcases heol with rfl | rfl <;> decide
    rw [if_neg heols, hnil, if_neg nofun]
  · have hrows : rows ≠ [] := by
      cases hrest with
      | nil => exact absurd rfl hnil
      | last h => exact List.cons_ne_nil _ _
      | line h heol' h' => exact List.cons_ne_nil _ _
    simp only [endsInComma_append (List.append_ne_nil_of_right_ne_nil eol hnil), endsInComma_append hnil]
    split_ifs
    · exact List.dropLast_cons_of_ne_nil hrows
    · rfl

/-- What the checks of a record need. -/
structure Fresh (length : Int) (data : Data) (rows : List Row) (width : Nat) : Prop where
  sorted : OrderedMap.Sorted data
  fields : ∀ row ∈ rows, row.fields.length = width
  size : length < 0 ∨ ((width + 1 : Nat) : Int) % 2 ^ 32 = length % 2 ^ 32
  addrs : (rows.map Row.addr).Nodup
  new : ∀ row ∈ rows, OrderedMap.find data row.addr = none

section
variable {length : Int} {data : Data} {row : Row} {rows : List Row} {width : Nat}

theorem Row.record_length (row : Row) : row.record.length = row.fields.length + 1 := rfl

/-- The state behind a record. -/
theorem Fresh.step (h : Fresh length data (row :: rows) width) :
    Fresh (if length < 0 then toInt32 row.record.length else length) (OrderedMap.insert data row.addr row.record)
      rows width := by
  have hnodup : row.addr ∉ rows.map Row.addr ∧ (rows.map Row.addr).Nodup := List.nodup_cons.mp h.addrs
  refine ⟨OrderedMap.sorted_insert h.sorted _ _, fun r hr => h.fields r (List.mem_cons_of_mem row hr), ?_, hnodup.2,
    fun r hr => ?_⟩
  · rw [Row.record_length, h.fields row List.mem_cons_self]
    split_ifs with hneg
    · exact Or.inr (Int.bmod_emod ..).symm
    · exact Or.inr (h.size.resolve_left hneg)
  · have hne : r.addr ≠ row.addr := fun heq => hnodup.1 (heq ▸ List.mem_map_of_mem hr)
    rw [OrderedMap.find_insert h.sorted, if_neg hne]
    exact h.new r (List.mem_cons_of_mem row hr)

/-- A record passes the checks, and is inserted. -/
theorem Fresh.readTable_row (h : Fresh length data (row :: rows) width) {stream more : List UInt8}
    (hread : parseRecord stream = .ok ⟨true, row.record, more⟩) (fuel : Nat) :
    readTable (fuel + 1) length data stream =
      readTable fuel (if length < 0 then toInt32 row.record.length else length)
        (OrderedMap.insert data row.addr row.record) more := by
  have hsize : ¬(¬length < 0 ∧ (row.record.length : Int) % 2 ^ 32 ≠ length % 2 ^ 32) := by
    rw [Row.record_length, h.fields row List.mem_cons_self]
    have := h.size
    omega
  have hnew : ¬(OrderedMap.find data row.addr).isSome = true := by
    rw [h.new row List.mem_cons_self]
    exact Bool.false_ne_true
  rw [readTable, hread]
  show (if ¬length < 0 ∧ _ then _ else if (OrderedMap.find data row.addr).isSome then _ else _) = _
  rw [if_neg hsize, if_neg hnew]

/-- The records that are read are in the table, with what was in it. -/
theorem readTable_written {file : List UInt8} (hfile : Written rows file) (h : Fresh length data rows width) {fuel : Nat}
    (hfuel : file.length < fuel) : ∃ data', readTable fuel length data file = .ok data' ∧
      ∀ addr, OrderedMap.find data' addr = (recordOf (keptRows rows file) addr).or (OrderedMap.find data addr) := by
  induction hfile generalizing length data fuel with
  | nil =>
      obtain ⟨fuel, rfl⟩ := Nat.exists_eq_add_of_lt hfuel
      exact ⟨data, rfl, fun addr => rfl⟩
  | @last row s hs =>
      have hpos : 0 < s.length := List.length_pos_iff.mpr hs.ne_nil
      obtain ⟨fuel, rfl⟩ := Nat.exists_eq_add_of_le (show 2 ≤ fuel by omega)
      obtain ⟨r, hread, heq⟩ := parseRecord_end hs
      unfold keptRows
      by_cases hend : EndsInComma s
      · rw [decide_eq_true hend] at hread
        refine ⟨data, ?_, fun addr => ?_⟩
        · rw [Nat.add_comm, readTable, hread]
          rfl
        · rw [if_pos hend]
          rfl
      · rw [decide_eq_false hend, heq hend] at hread
        refine ⟨_, (Nat.add_comm 2 fuel ▸ h.readTable_row hread (fuel + 1)).trans rfl, fun addr => ?_⟩
        rw [OrderedMap.find_insert h.sorted, h.new row List.mem_cons_self, if_neg hend, recordOf, List.find?_cons]
        by_cases haddr : addr = row.addr
        · simp [haddr]
        · simp [haddr, Ne.symm haddr]
  | @line row rows s eol rest hs heol hrest ih =>
      obtain ⟨fuel, rfl⟩ := Nat.exists_eq_succ_of_ne_zero (Nat.ne_zero_of_lt hfuel)
      have hpos : 0 < s.length := List.length_pos_iff.mpr hs.ne_nil
      have hlen : rest.length < fuel := by
        rw [List.length_append, List.length_append] at hfuel
        omega
      obtain ⟨data', hdata', hfind⟩ := ih h.step hlen
      refine ⟨data', ?_, fun addr => ?_⟩
      · rw [Nat.succ_eq_add_one, h.readTable_row (parseRecord_line hs heol), hdata']
      · rw [hfind, OrderedMap.find_insert h.sorted, keptRows_cons heol hrest, recordOf, recordOf, List.find?_cons]
        by_cases haddr : addr = row.addr
        · have hnone : (keptRows rows rest).find? (fun r => r.addr = row.addr) = none := by
            refine List.find?_eq_none.mpr fun r hr => ?_
            have hmem : r ∈ rows := by
              unfold keptRows at hr
              split_ifs at hr
              · exact List.dropLast_subset rows hr
              · exact hr
            have hne : r.addr ≠ row.addr := fun heq =>
              (List.nodup_cons.mp h.addrs).1 (heq ▸ List.mem_map_of_mem hmem)
            simpa using hne
          rw [haddr, if_pos rfl, hnone, h.new row List.mem_cons_self]
          simp
        · rw [if_neg haddr]
          simp [Ne.symm haddr]

end

/-! ### Lookups -/

/-- A table is accepted; its records that are read are the ones that are found. -/
theorem parseCSV_written (table : Table) {file : List UInt8} (hfile : Written table.rows file) :
    ∃ data, parseCSV file = .ok data ∧ ∀ addr, OrderedMap.find data addr = recordOf (keptRows table.rows file) addr := by
  have hfresh : Fresh (-1) [] table.rows table.width :=
    ⟨List.Pairwise.nil, table.fields_length, Or.inl (by decide), table.addrs, fun _ _ => rfl⟩
  obtain ⟨data, hdata, hfind⟩ := readTable_written hfile hfresh (Nat.lt_succ_self _)
  exact ⟨data, hdata, fun addr => (hfind addr).trans (Option.or_none)⟩

/-- The tables of a cache are those of the files. -/
theorem CacheRun.lookup_eq {files : List UInt8 → Option (List UInt8)} {cache : Cache} (h : CacheRun files cache)
    {basename : List UInt8} {data : Data} (hdata : cache.lookup basename = some data) :
    ∃ file, files (basename ++ ascii ".csv") = some file ∧ parseCSV file = .ok data := by
  induction h with
  | start => cases hdata
  | @lookup cache cache' addr name idx value hrun hget ih =>
      rw [getCSVValue, map_ok] at hget
      obtain ⟨r, hr, hget⟩ := hget
      have hcache : cache' = r.2 := by
        cases hfind : OrderedMap.find r.1 addr <;> rw [hfind] at hget <;> cases hget <;> rfl
      subst hcache
      rw [cachedTable] at hr
      cases hlookup : cache.lookup name with
      | some data' =>
          rw [hlookup] at hr
          cases hr
          exact ih hdata
      | none =>
          rw [hlookup] at hr
          cases hfile : files (name ++ ascii ".csv") with
          | none =>
              rw [hfile] at hr
              cases hr
          | some file =>
              rw [hfile] at hr
              obtain ⟨data', hparse, rfl⟩ := map_ok.mp hr
              rw [List.lookup_cons] at hdata
              by_cases hname : basename = name
              · rw [hname, beq_self_eq_true] at hdata
                exact ⟨file, hname ▸ hfile, Option.some.inj hdata ▸ hparse⟩
              · rw [beq_eq_false_iff_ne.mpr hname] at hdata
                exact ih hdata

/-- In a run the table of a file is what it is parsed to, whether or not it was parsed before. -/
theorem CacheRun.cachedTable_eq {files : List UInt8 → Option (List UInt8)} {cache : Cache} (h : CacheRun files cache)
    {basename file : List UInt8} (hfile : files (basename ++ ascii ".csv") = some file) {data : Data}
    (hdata : parseCSV file = .ok data) : ∃ cache', cachedTable files cache basename = .ok (data, cache') := by
  unfold cachedTable
  cases hlookup : cache.lookup basename with
  | some data' =>
      obtain ⟨file', hfile', hdata'⟩ := h.lookup_eq hlookup
      obtain rfl := Option.some.inj (hfile.symm.trans hfile')
      obtain rfl := Except.ok.inj (hdata.symm.trans hdata')
      exact ⟨cache, rfl⟩
  | none =>
      refine ⟨(basename, data) :: cache, ?_⟩
      simp only [hfile, hdata]
      rfl

/-- The field of a record, if there is one. -/
def fieldAt (record : Option (List Entry)) (idx : Nat) : Entry := (record.getD []).getD idx .undefined

theorem CacheRun.getCSVValue_eq {files : List UInt8 → Option (List UInt8)} {cache : Cache} (h : CacheRun files cache)
    {basename file : List UInt8} (hfile : files (basename ++ ascii ".csv") = some file) {data : Data}
    (hdata : parseCSV file = .ok data) (addr : Int) (idx : UInt16) :
    ∃ cache', getCSVValue files cache addr basename idx =
      .ok (fieldAt (OrderedMap.find data addr) idx.toNat, cache') := by
  obtain ⟨cache', htable⟩ := h.cachedTable_eq hfile hdata
  refine ⟨cache', ?_⟩
  rw [getCSVValue, htable]
  cases hfind : OrderedMap.find data addr <;> simp [Except.map, fieldAt, hfind]

/-- The index of a lookup is that of a patch argument in 16 bits. -/
def toUInt16 (k : Int) : UInt16 := UInt16.ofNat (k % 2 ^ 16).toNat

theorem toUInt16_toNat (k : Int) : (toUInt16 k).toNat = (k % 2 ^ 16).toNat :=
  UInt16.toNat_ofNat_of_lt (by simp only [UInt16.size]; omega)

/-- A file gives a field back: of the record that it breaks off in, no more than nothing; of another one, the
field that the index is in 16 bits. -/
def GivenBack (table : Table) (file : List UInt8) (addr k : Int) : Prop :=
  if EndsInComma file ∧ table.rows.getLast?.map Row.addr = some addr then table.field addr k = .undefined
  else table.field addr (k % 2 ^ 16) = table.field addr k

theorem Table.field_eq (table : Table) (addr : Int) {k : Int} (hk : 0 ≤ k) :
    table.field addr k = fieldAt (recordOf table.rows addr) k.toNat := by
  unfold Table.field recordOf
  cases table.rows.find? fun row => row.addr = addr with
  | none => rfl
  | some row => exact if_pos hk

/-- The records that are read, and those of the table. -/
theorem recordOf_keptRows (table : Table) (file : List UInt8) (addr : Int) :
    recordOf (keptRows table.rows file) addr =
      if EndsInComma file ∧ table.rows.getLast?.map Row.addr = some addr then none else recordOf table.rows addr := by
  unfold keptRows
  by_cases hend : EndsInComma file
  · rw [if_pos hend]
    cases hlast : table.rows.getLast? with
    | none =>
        rw [List.getLast?_eq_none_iff.mp hlast, if_neg (by simp)]
        rfl
    | some last =>
        obtain ⟨init, hinit⟩ := List.getLast?_eq_some_iff.mp hlast
        have hnodup := table.addrs
        rw [hinit, List.map_append, List.nodup_append] at hnodup
        have hnotin : ∀ row ∈ init, row.addr ≠ last.addr := fun row hrow =>
          hnodup.2.2 _ (List.mem_map_of_mem hrow) _ (List.mem_singleton_self _)
        rw [hinit, List.dropLast_concat, recordOf, recordOf, List.find?_append]
        by_cases haddr : last.addr = addr
        · have hnone : init.find? (fun row => row.addr = addr) = none :=
            List.find?_eq_none.mpr fun row hrow => by simpa using haddr ▸ hnotin row hrow
          rw [if_pos ⟨hend, congrArg some haddr⟩, hnone]
          rfl
        · rw [if_neg fun h => haddr (Option.some.inj h.2)]
          cases init.find? fun row => row.addr = addr <;> simp [haddr]
  · rw [if_neg hend, if_neg fun h => hend h.1]

/-- **The lookup in a table.** A table is accepted, and at every point of a run its fields are given back unless
the file breaks off behind a comma in the record, or the index has no 16 bits. -/
theorem csv_field_iff (table : Table) {file : List UInt8} (hwritten : Written table.rows file)
    {files : List UInt8 → Option (List UInt8)} {basename : List UInt8}
    (hfile : files (basename ++ ascii ".csv") = some file) {cache : Cache} (hcache : CacheRun files cache) (addr k : Int) :
    (∃ data, parseCSV file = .ok data) ∧
      ((∃ cache', getCSVValue files cache addr basename (toUInt16 k) = .ok (table.field addr k, cache')) ↔
        GivenBack table file addr k) := by
  obtain ⟨data, hdata, hfind⟩ := parseCSV_written table hwritten
  obtain ⟨cache', hget⟩ := hcache.getCSVValue_eq hfile hdata addr (toUInt16 k)
  refine ⟨⟨data, hdata⟩, ?_⟩
  have hiff : (∃ cache', getCSVValue files cache addr basename (toUInt16 k) = .ok (table.field addr k, cache')) ↔
      fieldAt (OrderedMap.find data addr) (toUInt16 k).toNat = table.field addr k := by
    rw [hget]
    constructor
    · rintro ⟨cache'', h⟩
      exact congrArg Prod.fst (Except.ok.inj h)
    · intro h
      exact ⟨cache', by rw [h]⟩
  rw [hiff, hfind, recordOf_keptRows, toUInt16_toNat, GivenBack]
  split_ifs
  · exact eq_comm
  · rw [table.field_eq addr (Int.emod_nonneg k (by decide))]

/-- A record with a string and an undefined field. -/
def fooTable : Table where
  rows := [⟨16, [.string (ascii "foo"), .undefined]⟩]
  width := 2
  fields_length := by decide
  addrs := by decide

theorem fooTable_row : RowText ⟨16, [.string (ascii "foo"), .undefined]⟩ (ascii "16,foo,") := by
  have haddr : FieldText (.integer 16) (ascii "16") := .integer (by unfold IsInt64; decide) (Or.inl (by decide))
  have hfoo : FieldText (.string (ascii "foo")) (ascii "foo") :=
    .bare (by decide) (by decide) (by decide)
  exact ⟨_, _, haddr, .cons hfoo (.cons .undefined .nil), by decide⟩

theorem foo_given_back : ∃ cache', getCSVValue (fun _ => some (ascii "16,foo,\n")) [] 16 (ascii "t") (toUInt16 1) =
    .ok (.string (ascii "foo"), cache') := by
  have hwritten : Written fooTable.rows (ascii "16,foo,\n") := .line fooTable_row (Or.inl rfl) .nil
  have hiff := (@csv_field_iff fooTable _ hwritten (fun _ => some (ascii "16,foo,\n")) (ascii "t") rfl [] .start 16 1).2
  have hfield : fooTable.field 16 1 = .string (ascii "foo") := by decide
  rw [hfield] at hiff
  refine hiff.mpr ?_
  rw [GivenBack, if_neg fun h => absurd h.1 (by decide)]
  decide

/-- Without the end of its line the record is dropped. -/
theorem foo_dropped : ¬∀ (table : Table) (file basename : List UInt8) (addr k : Int), Written table.rows file →
    ∃ cache', getCSVValue (fun _ => some file) [] addr basename (toUInt16 k) = .ok (table.field addr k, cache') := by
  intro h
  obtain ⟨cache', hget⟩ := h fooTable (ascii "16,foo,") (ascii "t") 16 1 (.last fooTable_row)
  have hcode : (getCSVValue (fun _ => some (ascii "16,foo,")) [] 16 (ascii "t") (toUInt16 1)).map Prod.fst =
      .ok .undefined := by decide
  rw [hget] at hcode
  have hfield : fooTable.field 16 1 = .undefined := Except.ok.inj hcode
  exact absurd hfield (by decide)

end E9Tool
