import E9Patch.JsonRoundTrip
import E9Patch.RpcFrontend
import E9Patch.RpcModel

/-!
Templates on the wire. Every item that a sender writes is read back as its entry, runs of bytes as one, and so a list of
items as the template that the cache has for its entries.
-/

namespace E9Patch.Rpc
open Bytes Numerals
open E9Tool

/-! ### Chains -/

@[simp] theorem ok_bind {ε α β : Type} (a : α) (f : α → Except ε β) : (Except.ok a >>= f) = f a := rfl

@[simp] theorem lift_ok {α : Type} (a : α) : lift (.ok a : Except ParseError α) = .ok a := rfl

/-! ### Strings and names -/

/-- The strings that arrive: short enough, without a zero byte and without the byte that ends the file. -/
structure Sendable (s : List UInt8) : Prop where
  zero : 0 ∉ s
  eof : EOF ∉ s
  length : s.length < STRING_MAX

instance (s : List UInt8) : Decidable (Sendable s) :=
  decidable_of_iff (0 ∉ s ∧ EOF ∉ s ∧ s.length < STRING_MAX)
    ⟨fun h => ⟨h.1, h.2.1, h.2.2⟩, fun h => ⟨h.zero, h.eof, h.length⟩⟩

section
variable {s : List UInt8} (hs : Sendable s) (rest : List UInt8) (lineno : Nat)
include hs

theorem getToken_string : getToken (.at (sendString s ++ rest) lineno) = .ok (.string s, .at rest lineno) :=
  getToken_sendString hs.zero hs.eof hs.length rest lineno

theorem parseString_string : parseString (.at (sendString s ++ rest) lineno) = .ok (s, .at rest lineno) :=
  (parseString_sendString hs.zero hs.length rest lineno).mpr hs.eof

/-- A string where there may be a symbol. -/
theorem expectToken2_string (c : UInt8) : expectToken2 (.at (sendString s ++ rest) lineno) c TOKEN_STRING =
    .ok (.string s, .at rest lineno) :=
  expectTokens_ok (getToken_string hs rest lineno) (List.mem_cons_of_mem _ (List.mem_singleton_self _))

theorem expectToken2_string_first (c : UInt8) : expectToken2 (.at (sendString s ++ rest) lineno) TOKEN_STRING c =
    .ok (.string s, .at rest lineno) :=
  expectTokens_ok (getToken_string hs rest lineno) List.mem_cons_self

end

theorem expectToken2_first {c : UInt8} (hc : c ∈ symbols) (d : UInt8) (rest : List UInt8) (lineno : Nat) :
    expectToken2 (.at (c :: rest) lineno) c d = .ok (.symbol c, .at rest lineno) :=
  expectTokens_ok (getToken_symbol hc rest lineno) List.mem_cons_self

theorem expectToken2_second {c : UInt8} (hc : c ∈ symbols) (d : UInt8) (rest : List UInt8) (lineno : Nat) :
    expectToken2 (.at (c :: rest) lineno) d c = .ok (.symbol c, .at rest lineno) :=
  expectTokens_ok (getToken_symbol hc rest lineno) (List.mem_cons_of_mem _ List.mem_cons_self)

/-- The names of the protocol are sent as they are. -/
def plainName (name : String) : Bool := Sendable (ascii name) ∧ (ascii name).flatMap escape = ascii name

theorem sendName (name : String) (h : plainName name = true) :
    ascii "\"" ++ ascii name ++ ascii "\"" = sendString (ascii name) := by
  have hescape : (ascii name).flatMap escape = ascii name := (of_decide_eq_true h).2
  unfold sendString
  rw [hescape]
  rfl

theorem plainName_sendable {name : String} (h : plainName name = true) : Sendable (ascii name) :=
  (of_decide_eq_true h).1

/-! ### Data entries -/

/-- The range of the integers of a size. -/
def FitsInteger (size : Nat) (i : Int) : Prop :=
  (size = 8 ∨ size = 16 ∨ size = 32) ∧ -2 ^ (size - 1) ≤ i ∧ i < 2 ^ size ∨ size = 64 ∧ IsInt64 i

/-- The entry of an integer. -/
def integerEntry (size : Nat) (i : Int) : Entry :=
  if size = 8 then .INT8 (.uint64 (i % 2 ^ 8).toNat)
  else if size = 16 then .INT16 (.uint64 (i % 2 ^ 16).toNat)
  else if size = 32 then .INT32 (.uint64 (i % 2 ^ 32).toNat)
  else .INT64 (.uint64 (toU64 i))

/-- A data entry with the type name `name` is the entry that its data is read as. -/
theorem makeDataEntry_data {name : String} {value rest : List UInt8} {lineno : Nat} {entry : ParsedEntry}
    (hname : name ∈ ["int8", "int16", "int32", "int64", "rel8", "rel32", "string"])
    (hvalue : parseData (.at (value ++ 0x7d :: rest) lineno) (ascii name) = .ok (entry, .at (0x7d :: rest) lineno)) :
    makeDataEntry (.at (sendString (ascii name) ++ 0x3a :: (value ++ 0x7d :: rest)) lineno) =
      .ok (entry, .at rest lineno) := by
  have hplain : Sendable (ascii name) := by
    have hall : ∀ name ∈ ["int8", "int16", "int32", "int64", "rel8", "rel32", "string"], Sendable (ascii name) := by
      decide
    exact hall name hname
  have hmem : ascii name ∈ ["int8", "int16", "int32", "int64", "rel8", "rel32", "string"].map ascii :=
    List.mem_map_of_mem hname
  unfold makeDataEntry
  simp only [parseString_string hplain, ok_bind, if_pos (Or.inl hmem : _ ∨ _), expectToken_symbol (c := 0x3a) (by decide),
    hvalue, expectToken_symbol (c := 0x7d) (by decide)]

/-- An integer, as `sendInteger` writes it, where `convert` takes it. -/
theorem parseValue_integer {x : Int} (hx : IsInt64 x) {rest : List UInt8} (hrest : EndsNumber rest) (lineno : Nat)
    {convert : Parser → Int → Except ParseError Nat} {n : Nat} (hn : convert (.at rest lineno) x = .ok n) :
    parseValue (.at (sendInteger x ++ rest) lineno) convert = .ok (.uint64 n, .at rest lineno) := by
  by_cases h : x ≥ -2 ^ 31 ∧ x ≤ 2 ^ 31 - 1
  · rw [sendInteger, if_pos h]
    exact parseValue_number h hrest lineno hn
  · have hplain := hexText_plain x
    have htoken : expectToken2 (.at (sendInteger x ++ rest) lineno) TOKEN_NUMBER TOKEN_STRING =
        .ok (.string (hexText x), .at rest lineno) := by
      rw [sendInteger_wide h]
      exact expectTokens_ok (getToken_sendString (fun h0 => (hplain 0 h0).2.2 rfl)
        (fun hff => (hplain _ hff).2.1 rfl) (hexText_length hx) rest lineno)
        (List.mem_cons_of_mem _ (List.mem_singleton_self _))
    have hlabel : ¬(hexText x).take 2 = ascii ".L" := by
      unfold hexText
      split
      · intro hl
        exact absurd (List.cons.inj hl).1 (by decide)
      · intro hl
        exact absurd (List.cons.inj hl).1 (by decide)
    unfold parseValue
    simp only [htoken, ok_bind, if_neg hlabel, stringToNumber_hexText hx, hn]

theorem narrow_integer {bits : Nat} (hbits : 0 < bits) {x : Int} (hlow : -2 ^ (bits - 1) ≤ x) (hhigh : x < 2 ^ bits)
    (p : Parser) : narrow bits p x = .ok (x % 2 ^ bits).toNat := by
  rw [narrow_ok ⟨hlow, by omega⟩]
  congr 2
  have hpow : (2 : Int) ^ bits = 2 ^ (bits - 1) * 2 := by
    rw [← Int.pow_succ]
    congr 1
    omega
  have hpos : (0 : Int) < 2 ^ (bits - 1) := Int.pow_pos (by decide)
  split
  · rw [← Int.add_emod_right, Int.emod_eq_of_lt (by omega) (by omega)]
    omega
  · rw [Int.emod_eq_of_lt (by omega) (by omega)]

theorem parseData_integer {size : Nat} {i : Int} (h : FitsInteger size i) {rest : List UInt8} (hrest : EndsNumber rest)
    (lineno : Nat) : parseData (.at (sendInteger i ++ rest) lineno) (ascii "int" ++ numeral 10 size) =
      .ok (integerEntry size i, .at rest lineno) := by
  have hint : IsInt64 i := by
    rcases h with ⟨rfl | rfl | rfl, h1, h2⟩ | ⟨rfl, h⟩
    · exact ⟨by simp only [INTPTR_MIN]; omega, by simp only [INTPTR_MAX]; omega⟩
    · exact ⟨by simp only [INTPTR_MIN]; omega, by simp only [INTPTR_MAX]; omega⟩
    · exact ⟨by simp only [INTPTR_MIN]; omega, by simp only [INTPTR_MAX]; omega⟩
    · exact h
  rcases h with ⟨rfl | rfl | rfl, h1, h2⟩ | ⟨rfl, h⟩
  · rw [parseData, if_pos (by decide), parseValue_integer hint hrest lineno (narrow_integer (by decide) h1 h2 _)]
    rfl
  · rw [parseData, if_neg (by decide), if_pos (by decide),
      parseValue_integer hint hrest lineno (narrow_integer (by decide) h1 h2 _)]
    rfl
  · rw [parseData, if_neg (by decide), if_neg (by decide), if_pos (by decide),
      parseValue_integer hint hrest lineno (narrow_integer (by decide) h1 h2 _)]
    rfl
  · rw [parseData, if_neg (by decide), if_neg (by decide), if_neg (by decide), if_pos (by decide),
      parseValue_wide hint hrest lineno]
    rfl

/-! ### Items -/

/-- The entry of an item; a byte is part of a run. -/
def itemEntry : Item → Entry
  | .byte b => .BYTES [b]
  | .int size i => integerEntry size i
  | .rel8 label => .REL8 (.label (toLabel label))
  | .rel32 label => .REL32 (.label (toLabel label))
  | .rel32Address addr => .REL32 (.uint64 (toU64 addr))
  | .asm instr newline => .BYTES (instr ++ (if newline then [0x0a] else []) ++ [0])
  | .name s => if s.head? = some 0x24 then makeMacroEntry s else .LABEL (toLabel s)

/-- What arrives of an item. -/
def ItemSendable : Item → Prop
  | .byte _ => True
  | .int size i => FitsInteger size i
  | .rel8 label | .rel32 label => Sendable label ∧ label.take 2 = ascii ".L"
  | .rel32Address addr => -2 ^ 31 ≤ addr ∧ addr ≤ 2 ^ 31 - 1
  | .asm instr newline => Sendable (instr ++ if newline then [0x0a] else [])
  | .name s => Sendable s ∧ (s.head? = some 0x24 ∨ s.take 2 = ascii ".L")

/-- The run of bytes and the entries behind an item. -/
def addItem (item : Item) (s : List UInt8 × List ParsedEntry) : List UInt8 × List ParsedEntry :=
  match item with
  | .byte b => (s.1 ++ [b], s.2)
  | _ => ([], flushBytes s.1 s.2 ++ [some (itemEntry item)])

/-- The entries of a template. -/
def templateEntries (items : List Item) (entries : List ParsedEntry) : List ParsedEntry :=
  let s := items.foldl (fun s item => addItem item s) ([], entries)
  flushBytes s.1 s.2

theorem flushBytes_named {bytes : List UInt8} {entries : List ParsedEntry} (h : none ∉ entries) :
    none ∉ flushBytes bytes entries := by
  unfold flushBytes
  split
  · exact h
  · simpa using h

theorem addItem_named (item : Item) {s : List UInt8 × List ParsedEntry} (h : none ∉ s.2) : none ∉ (addItem item s).2 := by
  unfold addItem
  split
  · exact h
  · simpa using flushBytes_named h

/-- No item makes a null label. -/
theorem templateEntries_named (items : List Item) {entries : List ParsedEntry} (h : none ∉ entries) :
    none ∉ templateEntries items entries := by
  unfold templateEntries
  apply flushBytes_named
  have hfold : ∀ s : List UInt8 × List ParsedEntry, none ∉ s.2 →
      none ∉ (items.foldl (fun s item => addItem item s) s).2 := by
    induction items with
    | nil => exact fun _ h => h
    | cons item items ih => exact fun s hs => ih _ (addItem_named item hs)
  exact hfold ([], entries) h

/-- An item is read in front of any text that does not go on with a digit. -/
def ItemRead (item : Item) (text rest : List UInt8) (lineno : Nat) : Prop :=
  ∃ t q, getToken (.at text lineno) = .ok (t, q) ∧ t ≠ .symbol 0x5d ∧ t ≠ .symbol 0x5b ∧
    ∀ bytes entries, parseItem t q bytes entries = .ok (addItem item (bytes, entries), .at rest lineno)

theorem itemRead_data {item : Item} {text rest : List UInt8} {lineno : Nat}
    (hitem : ∀ s, addItem item s = ([], flushBytes s.1 s.2 ++ [some (itemEntry item)]))
    (h : makeDataEntry (.at text lineno) = .ok (some (itemEntry item), .at rest lineno)) :
    ItemRead item (0x7b :: text) rest lineno := by
  refine ⟨_, _, getToken_symbol (by decide) text lineno, by decide, by decide, fun bytes entries => ?_⟩
  rw [hitem]
  show (makeDataEntry _).map _ = _
  rw [h]
  rfl

theorem sendIntegerData_name {name : String} {size : Nat} (hplain : plainName name = true)
    (hname : ascii name = ascii "int" ++ numeral 10 size) (i : Int) (rest : List UInt8) :
    sendIntegerData size i ++ rest =
      0x7b :: (sendString (ascii name) ++ 0x3a :: (sendInteger i ++ 0x7d :: rest)) := by
  rw [← sendName _ hplain, hname]
  simp [sendIntegerData, ascii]

theorem sendIntegerData_text {size : Nat} (hsize : size = 8 ∨ size = 16 ∨ size = 32 ∨ size = 64) (i : Int)
    (rest : List UInt8) : ∃ name, name ∈ ["int8", "int16", "int32", "int64", "rel8", "rel32", "string"] ∧
      ascii name = ascii "int" ++ numeral 10 size ∧ sendIntegerData size i ++ rest =
        0x7b :: (sendString (ascii name) ++ 0x3a :: (sendInteger i ++ 0x7d :: rest)) := by
  rcases hsize with rfl | rfl | rfl | rfl
  · exact ⟨"int8", by decide, by decide, sendIntegerData_name (by decide) (by decide) i rest⟩
  · exact ⟨"int16", by decide, by decide, sendIntegerData_name (by decide) (by decide) i rest⟩
  · exact ⟨"int32", by decide, by decide, sendIntegerData_name (by decide) (by decide) i rest⟩
  · exact ⟨"int64", by decide, by decide, sendIntegerData_name (by decide) (by decide) i rest⟩

/-- A label is read as it is. -/
theorem parseValue_label {label : List UInt8} (hs : Sendable label) (hlabel : label.take 2 = ascii ".L")
    (rest : List UInt8) (lineno : Nat) : parseValue (.at (sendString label ++ rest) lineno) wide =
      .ok (.label (toLabel label), .at rest lineno) := by
  have htoken : expectToken2 (.at (sendString label ++ rest) lineno) TOKEN_NUMBER TOKEN_STRING =
      .ok (.string label, .at rest lineno) :=
    expectTokens_ok (getToken_string hs _ lineno) (List.mem_cons_of_mem _ (List.mem_singleton_self _))
  unfold parseValue
  simp only [htoken, ok_bind, if_pos hlabel]

/-- The text of a data entry with the type name `name`. -/
theorem dataEntry_text (name : String) (hplain : plainName name = true) (value rest : List UInt8) :
    ascii "\x7b\"" ++ ascii name ++ ascii "\":" ++ value ++ ascii "\x7d" ++ rest =
      0x7b :: (sendString (ascii name) ++ 0x3a :: (value ++ 0x7d :: rest)) := by
  rw [← sendName _ hplain]
  simp [ascii]

/-- **Items.** Every item that can be sent is read back. -/
theorem item_read {item : Item} (h : ItemSendable item) {rest : List UInt8} (hrest : EndsNumber rest) (lineno : Nat) :
    ItemRead item (sendItem item ++ rest) rest lineno := by
  cases item with
  | byte b =>
      refine ⟨_, _, getToken_byte b hrest lineno, by simp, by simp, fun bytes entries => ?_⟩
      have hb := b.toNat_lt
      show (if _ then _ else _) = _
      rw [if_neg (by omega), Int.toNat_natCast, UInt8.ofNat_toNat]
      rfl
  | int size i =>
      have hsize : size = 8 ∨ size = 16 ∨ size = 32 ∨ size = 64 := by
        rcases h with ⟨h | h | h, -⟩ | ⟨h, -⟩
        · exact Or.inl h
        · exact Or.inr (Or.inl h)
        · exact Or.inr (Or.inr (Or.inl h))
        · exact Or.inr (Or.inr (Or.inr h))
      obtain ⟨name, hmem, hname, htext⟩ := sendIntegerData_text hsize i rest
      show ItemRead _ (sendIntegerData size i ++ rest) _ _
      rw [htext]
      apply itemRead_data fun s => rfl
      apply makeDataEntry_data hmem
      rw [hname]
      exact parseData_integer h (endsNumber_symbol (by decide) rest) lineno
  | rel8 label =>
      obtain ⟨hs, hlabel⟩ := h
      have htext := dataEntry_text "rel8" (by decide) (sendString label) rest
      show ItemRead _ (ascii "\x7b\"" ++ ascii "rel8" ++ ascii "\":" ++ sendString label ++ ascii "\x7d" ++ rest) _ _
      rw [htext]
      apply itemRead_data fun s => rfl
      apply makeDataEntry_data (by decide)
      rw [parseData, if_neg (by decide), if_neg (by decide), if_neg (by decide), if_neg (by decide),
        if_pos (by decide), parseValue_label hs hlabel]
      rfl
  | rel32 label =>
      obtain ⟨hs, hlabel⟩ := h
      have htext := dataEntry_text "rel32" (by decide) (sendString label) rest
      show ItemRead _ (ascii "\x7b\"" ++ ascii "rel32" ++ ascii "\":" ++ sendString label ++ ascii "\x7d" ++ rest) _ _
      rw [htext]
      apply itemRead_data fun s => rfl
      apply makeDataEntry_data (by decide)
      rw [parseData, if_neg (by decide), if_neg (by decide), if_neg (by decide), if_neg (by decide),
        if_neg (by decide), if_pos (by decide), parseValue_label hs hlabel]
      rfl
  | rel32Address addr =>
      have htext := dataEntry_text "rel32" (by decide) (signedNumeral addr) rest
      show ItemRead _ (ascii "\x7b\"" ++ ascii "rel32" ++ ascii "\":" ++ signedNumeral addr ++ ascii "\x7d" ++ rest) _ _
      rw [htext]
      apply itemRead_data fun s => rfl
      apply makeDataEntry_data (by decide)
      rw [parseData, if_neg (by decide), if_neg (by decide), if_neg (by decide), if_neg (by decide),
        if_neg (by decide), if_pos (by decide),
        parseValue_number h (endsNumber_symbol (by decide) rest) lineno (n := toU64 addr) rfl]
      rfl
  | asm instr newline =>
      have htext : sendItem (.asm instr newline) ++ rest = 0x7b :: (sendString (ascii "string") ++
          0x3a :: (sendString (instr ++ if newline then [0x0a] else []) ++ 0x7d :: rest)) := by
        rw [← sendName _ (by decide)]
        cases newline <;> simp [sendItem, sendAsmStrData, sendString, ascii, List.flatMap_append]
      rw [htext]
      apply itemRead_data fun s => rfl
      apply makeDataEntry_data (by decide)
      rw [parseData, if_neg (by decide), if_neg (by decide), if_neg (by decide), if_neg (by decide),
        if_neg (by decide), if_neg (by decide), if_pos (by decide), parseString_string h]
      rfl
  | name s =>
      obtain ⟨hs, hname⟩ := h
      refine ⟨_, _, getToken_string hs rest lineno, by simp, by simp, fun bytes entries => ?_⟩
      show (if s.head? = some 0x24 then _ else if s.take 2 = ascii ".L" then _ else _) = _
      by_cases hmacro : s.head? = some 0x24
      · rw [if_pos hmacro]
        simp only [addItem, itemEntry, if_pos hmacro]
      · rw [if_neg hmacro, if_pos (hname.resolve_left hmacro)]
        simp only [addItem, itemEntry, if_neg hmacro]

/-! ### Templates -/

theorem sendItems_length (prev : Bool) (items : List Item) : items.length ≤ (sendItems prev items).length := by
  induction items generalizing prev with
  | nil => exact Nat.zero_le _
  | cons item items ih =>
      have hitem : 0 < (sendItem item).length := by
        cases item with
        | byte b => exact List.length_pos_of_ne_nil (numeral_ne_nil 10 _)
        | int size i => simp [sendItem, sendIntegerData, ascii]
        | rel8 label => simp [sendItem, ascii]
        | rel32 label => simp [sendItem, ascii]
        | rel32Address addr => simp [sendItem, ascii]
        | asm instr newline => simp [sendItem, sendAsmStrData, ascii]
        | name s => simp [sendItem, sendString]
      have := ih true
      simp only [sendItems, List.length_append, List.length_cons]
      omega

/-- What follows an item. -/
def itemsTail (comma : Bool) (items : List Item) (rest : List UInt8) : List UInt8 :=
  sendItems true items ++ ((if comma then ascii "," else []) ++ 0x5d :: rest)

theorem endsNumber_items (comma : Bool) (items : List Item) (rest : List UInt8) :
    EndsNumber (itemsTail comma items rest) := by
  cases items with
  | nil =>
      cases comma with
      | false => exact endsNumber_symbol (by decide) rest
      | true => exact endsNumber_symbol (c := 0x2c) (by decide) _
  | cons item items => exact endsNumber_symbol (c := 0x2c) (by decide) _

/-- The loop over the items, with the first of them read. -/
theorem parseItems_read {item : Item} {items : List Item} (hitems : ∀ i ∈ items, ItemSendable i) {comma : Bool}
    {rest : List UInt8} {lineno : Nat} {t : Token} {q : Parser} (ht : t ≠ .symbol 0x5d)
    (hread : ∀ bytes entries, parseItem t q bytes entries =
      .ok (addItem item (bytes, entries), .at (itemsTail comma items rest) lineno))
    {fuel : Nat} (hfuel : items.length + 2 ≤ fuel) (s : List UInt8 × List ParsedEntry) :
    parseItems fuel t q s.1 s.2 =
      .ok (let s := (item :: items).foldl (fun s item => addItem item s) s
        flushBytes s.1 s.2, .at rest lineno) := by
  induction items generalizing item t q fuel s with
  | nil =>
      obtain ⟨fuel, rfl⟩ : ∃ n, fuel = n + 2 := ⟨fuel - 2, by simp only [List.length_nil] at hfuel; omega⟩
      rw [parseItems, if_neg ht]
      simp only [hread, ok_bind]
      cases comma with
      | false =>
          have hclose := expectToken2_second (c := 0x5d) (by decide) 0x2c rest lineno
          rw [show itemsTail false [] rest = 0x5d :: rest from rfl, hclose]
          simp only [ok_bind]
          rw [if_neg (by decide), parseItems, if_pos rfl]
          rfl
      | true =>
          -- behind the last comma, the token is the end of the list
          have hcomma := expectToken2_first (c := 0x2c) (by decide) 0x5d (0x5d :: rest) lineno
          rw [show itemsTail true [] rest = 0x2c :: 0x5d :: rest from rfl, hcomma]
          simp only [ok_bind, if_true, getToken_symbol (c := 0x5d) (by decide)]
          rw [parseItems, if_pos rfl]
          rfl
  | cons next items ih =>
      obtain ⟨fuel, rfl⟩ : ∃ n, fuel = n + 1 := ⟨fuel - 1, by simp only [List.length_cons] at hfuel; omega⟩
      have htext : itemsTail comma (next :: items) rest = 0x2c :: (sendItem next ++ itemsTail comma items rest) := by
        simp [itemsTail, sendItems, ascii]
      obtain ⟨t', q', hget, ht', -, hread'⟩ :=
        item_read (hitems next List.mem_cons_self) (endsNumber_items comma items rest) lineno
      have hcomma := expectToken2_first (c := 0x2c) (by decide) 0x5d (sendItem next ++ itemsTail comma items rest) lineno
      rw [parseItems, if_neg ht]
      simp only [hread, ok_bind]
      rw [htext, hcomma]
      simp only [ok_bind, if_true, hget]
      apply ih (fun i hi => hitems i (List.mem_cons_of_mem _ hi)) ht' hread'
      simp only [List.length_cons] at hfuel
      omega

/-- A list of items in its brackets. -/
def itemsText (comma : Bool) (items : List Item) : List UInt8 :=
  ascii "[" ++ sendItems false items ++ sendComma comma items ++ ascii "]"

theorem itemsText_cons (comma : Bool) (item : Item) (items : List Item) (rest : List UInt8) :
    itemsText comma (item :: items) ++ rest = 0x5b :: (sendItem item ++ itemsTail comma items rest) := by
  cases comma <;> simp [itemsText, sendItems, sendComma, itemsTail, ascii]

/-- What a template is read as: the template that the cache has for its entries. -/
def templateResult (cache : List ParsedTrampoline) (entries : List ParsedEntry) (p : Parser) :
    Except ParseError ((ParsedTrampoline × List ParsedTrampoline) × Parser) :=
  match dupTrampoline cache entries with
  | .ok T => .ok (T, p)
  | .error f => p.fail (.fault f)

theorem templateResult_named {cache : List ParsedTrampoline} (h : CacheNamed cache) {entries : List ParsedEntry}
    (hentries : none ∉ entries) (p : Parser) :
    templateResult cache entries p = .ok (shareTemplate cache entries, p) := by
  rw [templateResult, dupTrampoline_named h hentries]

/-- **Templates.** Items that can be sent are read back as the template of the cache for their entries. -/
theorem parseTemplate_items {items : List Item} (hitems : ∀ i ∈ items, ItemSendable i) (comma : Bool)
    (rest : List UInt8) (lineno : Nat) (debug : Bool) (cache : List ParsedTrampoline) :
    parseTemplate (.at (itemsText comma items ++ rest) lineno) debug cache =
      templateResult cache (templateEntries items (if debug then [some .DEBUG] else [])) (.at rest lineno) := by
  unfold parseTemplate
  cases items with
  | nil =>
      have htext : itemsText comma [] ++ rest = 0x5b :: 0x5d :: rest := by
        simp [itemsText, sendItems, sendComma, ascii]
      rw [htext, getToken_symbol (by decide)]
      simp only [ok_bind, if_true]
      rw [getToken_symbol (by decide)]
      simp only [ok_bind]
      rw [parseItems, if_pos rfl]
      rfl
  | cons item items =>
      have hlen := sendItems_length true items
      rw [itemsText_cons, getToken_symbol (by decide)]
      simp only [ok_bind, if_true]
      obtain ⟨t, q, hget, ht, -, hread⟩ :=
        item_read (hitems item List.mem_cons_self) (endsNumber_items comma items rest) lineno
      have hfuel : items.length + 2 ≤
          (Parser.at (0x5b :: (sendItem item ++ itemsTail comma items rest)) lineno).stream.length + 1 := by
        simp only [Parser.at, itemsTail, List.length_cons, List.length_append] at hlen ⊢
        omega
      generalize hn : (Parser.at (0x5b :: (sendItem item ++ itemsTail comma items rest)) lineno).stream.length + 1 = n
        at hfuel
      rw [hget]
      simp only [ok_bind]
      rw [parseItems_read (fun i hi => hitems i (List.mem_cons_of_mem _ hi)) ht hread hfuel ([], _)]
      rfl

/-- The template of a patch is a name. -/
theorem parseTemplate_name {s : List UInt8} (hs : Sendable s) (hname : s.head? = some 0x24) (rest : List UInt8)
    (lineno : Nat) (cache : List ParsedTrampoline) :
    parseTemplate (.at (sendString s ++ rest) lineno) true cache =
      templateResult cache [some .DEBUG, some (makeMacroEntry s)] (.at rest lineno) := by
  have hitem : parseItem (.string s) (.at rest lineno) [] [some .DEBUG] =
      .ok (([], flushBytes [] [some .DEBUG] ++ [some (makeMacroEntry s)]), .at rest lineno) := by
    show (if s.head? = some 0x24 then _ else _) = _
    rw [if_pos hname]
  unfold parseTemplate
  rw [getToken_string hs]
  simp only [ok_bind]
  rw [if_neg (by simp), if_neg (by simp)]
  simp only [if_true, hitem]
  rfl

end E9Patch.Rpc
