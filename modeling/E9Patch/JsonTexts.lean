import Mathlib.Data.List.Chain
import E9Patch.JsonDiscard
import E9Patch.JsonRoundTrip

/-!
Parameters that are not known, as texts. The text of a JSON value is skipped exactly if the reader has a token for each
of its parts: numbers are integers of 32 bits, strings are short and have no escapes by number, and nothing is `null`.
-/

namespace E9Patch
open Bytes Numerals Fallible

set_option maxRecDepth 20000

/-! ### Texts of values -/

/-- A character of a string: as it is, escaped by a letter or a mark, or by its number. -/
inductive StringChar where
  | plain (c : UInt8) (h : 0x20 ≤ c ∧ c ≠ 0x22 ∧ c ≠ 0x5c)
  | escaped (c : UInt8) (h : c ∈ ascii "\"\\/bfnrt")
  | unicode (digits : List UInt8) (h : digits.length = 4 ∧ ∀ d ∈ digits, isDigit 16 d = true)

def StringChar.text : StringChar → List UInt8
  | .plain c _ => [c]
  | .escaped c _ => [0x5c, c]
  | .unicode digits _ => 0x5c :: 0x75 :: digits

/-- A number: its sign, the numeral of its integer part, and the texts of its fraction and its exponent. -/
structure NumberText where
  minus : Bool
  int : Nat
  frac : List UInt8
  exp : List UInt8
  frac_form : frac = [] ∨ ∃ digits, frac = 0x2e :: digits ∧ digits ≠ [] ∧ ∀ d ∈ digits, isDigit 10 d = true
  exp_form : exp = [] ∨ ∃ e sign digits, exp = e :: (sign ++ digits) ∧ e ∈ ascii "eE" ∧
    sign ∈ [[], [0x2b], [0x2d]] ∧ digits ≠ [] ∧ ∀ d ∈ digits, isDigit 10 d = true

def NumberText.text (n : NumberText) : List UInt8 :=
  (if n.minus then [0x2d] else []) ++ (numeral 10 n.int ++ (n.frac ++ n.exp))

/-- A part of a text. -/
inductive Lexeme where
  | symbol (c : UInt8) (h : c ∈ symbols)
  | null
  | bool (b : Bool)
  | number (n : NumberText)
  | string (s : List StringChar)

def Lexeme.text : Lexeme → List UInt8
  | .symbol c _ => [c]
  | .null => ascii "null"
  | .bool true => ascii "true"
  | .bool false => ascii "false"
  | .number n => n.text
  | .string s => 0x22 :: (s.flatMap StringChar.text ++ [0x22])

/-- A JSON value, as it is written. -/
inductive JsonText where
  | null
  | bool (b : Bool)
  | number (n : NumberText)
  | string (s : List StringChar)
  | array (items : List JsonText)
  | object (members : List (List StringChar × JsonText))

def Lexeme.comma : Lexeme := .symbol 0x2c (by decide)
def Lexeme.colon : Lexeme := .symbol 0x3a (by decide)

mutual

/-- The parts of a value. -/
def JsonText.lexemes : JsonText → List Lexeme
  | .null => [.null]
  | .bool b => [.bool b]
  | .number n => [.number n]
  | .string s => [.string s]
  | .array [] => [.symbol 0x5b (by decide), .symbol 0x5d (by decide)]
  | .array (v :: vs) => .symbol 0x5b (by decide) :: (v.lexemes ++ itemLexemes vs)
  | .object [] => [.symbol 0x7b (by decide), .symbol 0x7d (by decide)]
  | .object ((s, v) :: ms) => .symbol 0x7b (by decide) :: .string s :: .colon :: (v.lexemes ++ memberLexemes ms)

/-- The items behind the first one, and the closing bracket. -/
def itemLexemes : List JsonText → List Lexeme
  | [] => [.symbol 0x5d (by decide)]
  | v :: vs => .comma :: (v.lexemes ++ itemLexemes vs)

/-- The members behind the first one, and the closing brace. -/
def memberLexemes : List (List StringChar × JsonText) → List Lexeme
  | [] => [.symbol 0x7d (by decide)]
  | (s, v) :: ms => .comma :: .string s :: .colon :: (v.lexemes ++ memberLexemes ms)

end

/-- Parts in their order, each behind any space. -/
inductive Spells : List Lexeme → List UInt8 → Prop where
  | nil : Spells [] []
  | cons {space text : List UInt8} {l : Lexeme} {ls : List Lexeme} (hspace : ∀ c ∈ space, c ∈ ascii " \t\n\r")
      (h : Spells ls text) : Spells (l :: ls) (space ++ (l.text ++ text))

/-- What may stand behind a value: space, a comma, what closes, or nothing. -/
def Delimits (rest : List UInt8) : Prop := ∀ c ∈ rest.head?, c ∈ ascii " \t\n\r,]\x7d"

/-! ### What the reader has tokens for -/

def StringChar.Known : StringChar → Prop
  | .plain c _ => c ≠ EOF
  | .escaped _ _ => True
  | .unicode _ _ => False

/-- The character that is read. -/
def StringChar.value : StringChar → UInt8
  | .plain c _ => c
  | .escaped c _ => unescape c
  | .unicode _ _ => 0

def NumberText.value (n : NumberText) : Int := if n.minus then -n.int else n.int

/-- The parts that are read as a token: integers of 32 bits, and short strings without the byte `FF` and without escapes
by number. -/
def Lexeme.Known : Lexeme → Prop
  | .number n => n.frac = [] ∧ n.exp = [] ∧ -2 ^ 31 ≤ n.value ∧ n.value ≤ 2 ^ 31 - 1
  | .string s => s.length < STRING_MAX ∧ ∀ c ∈ s, c.Known
  | _ => True

def Lexeme.token : Lexeme → Token
  | .symbol c _ => .symbol c
  | .null => .null
  | .bool b => .bool b
  | .number n => .number n.value
  | .string s => .string (cString (s.map StringChar.value))

mutual

/-- The value that is read. -/
def JsonText.value : JsonText → Json
  | .null => .null
  | .bool b => .bool b
  | .number n => .number n.value
  | .string s => .string (cString (s.map StringChar.value))
  | .array items => .array (itemValues items)
  | .object members => .object (memberValues members)

def itemValues : List JsonText → List Json
  | [] => []
  | v :: vs => v.value :: itemValues vs

def memberValues : List (List StringChar × JsonText) → List (List UInt8 × Json)
  | [] => []
  | (s, v) :: ms => (cString (s.map StringChar.value), v.value) :: memberValues ms

end

mutual

/-- The tokens of the value that is read are those of the parts. -/
theorem JsonText.value_tokens : (v : JsonText) → v.value.tokens = v.lexemes.map Lexeme.token
  | .null | .bool _ | .number _ | .string _ => by simp [JsonText.value, Json.tokens, JsonText.lexemes, Lexeme.token]
  | .array [] => by simp [JsonText.value, itemValues, Json.tokens, JsonText.lexemes, Lexeme.token]
  | .array (v :: vs) => by
      simp [JsonText.value, itemValues, Json.tokens, JsonText.lexemes, Lexeme.token, v.value_tokens, itemValues_tokens vs]
  | .object [] => by simp [JsonText.value, memberValues, Json.tokens, JsonText.lexemes, Lexeme.token]
  | .object ((s, v) :: ms) => by
      simp [JsonText.value, memberValues, Json.tokens, JsonText.lexemes, Lexeme.token, Lexeme.colon, v.value_tokens,
        memberValues_tokens ms]

theorem itemValues_tokens : (vs : List JsonText) → moreItems (itemValues vs) = (itemLexemes vs).map Lexeme.token
  | [] => by simp [itemValues, moreItems, itemLexemes, Lexeme.token]
  | v :: vs => by
      simp [itemValues, moreItems, itemLexemes, Lexeme.token, Lexeme.comma, v.value_tokens, itemValues_tokens vs]

theorem memberValues_tokens : (ms : List (List StringChar × JsonText)) →
    moreMembers (memberValues ms) = (memberLexemes ms).map Lexeme.token
  | [] => by simp [memberValues, moreMembers, memberLexemes, Lexeme.token]
  | (s, v) :: ms => by
      simp [memberValues, moreMembers, memberLexemes, Lexeme.token, Lexeme.comma, Lexeme.colon, v.value_tokens,
        memberValues_tokens ms]

end

/-! ### Numbers are followed by symbols -/

/-- A number stands in front of a symbol. -/
def Separated (l l' : Lexeme) : Prop := (∃ c h, l' = .symbol c h) ∨ ∀ n, l ≠ .number n

theorem itemLexemes_head (vs : List JsonText) (l : Lexeme) : ∀ l' ∈ (itemLexemes vs).head?, Separated l l' := by
  cases vs <;> rintro l' ⟨⟩ <;> exact Or.inl ⟨_, _, rfl⟩

theorem memberLexemes_head (ms : List (List StringChar × JsonText)) (l : Lexeme) :
    ∀ l' ∈ (memberLexemes ms).head?, Separated l l' := by
  rcases ms with _ | ⟨⟨s, v⟩, ms⟩ <;> rintro l' ⟨⟩ <;> exact Or.inl ⟨_, _, rfl⟩

theorem separated_symbol {c : UInt8} (hc : c ∈ symbols) (l : Lexeme) : Separated (.symbol c hc) l :=
  Or.inr fun _ h => by cases h

theorem separated_string (s : List StringChar) (l : Lexeme) : Separated (.string s) l := Or.inr fun _ h => by cases h

mutual

theorem JsonText.separated : (v : JsonText) → v.lexemes.IsChain Separated
  | .null | .bool _ | .number _ | .string _ => by simp [JsonText.lexemes]
  | .array [] | .object [] => by simp [JsonText.lexemes, separated_symbol]
  | .array (v :: vs) => by
      rw [JsonText.lexemes]
      refine (v.separated.append (separated_items vs) fun l _ => itemLexemes_head vs l).cons fun l _ => ?_
      exact separated_symbol _ l
  | .object ((s, v) :: ms) => by
      rw [JsonText.lexemes]
      have hvalue := v.separated.append (separated_members ms) fun l _ => memberLexemes_head ms l
      refine ((hvalue.cons fun l _ => ?_).cons fun l _ => separated_string s l).cons fun l _ => separated_symbol _ l
      exact separated_symbol _ l

theorem separated_items : (vs : List JsonText) → (itemLexemes vs).IsChain Separated
  | [] => by simp [itemLexemes]
  | v :: vs => by
      rw [itemLexemes]
      refine (v.separated.append (separated_items vs) fun l _ => itemLexemes_head vs l).cons fun l _ => ?_
      exact separated_symbol _ l

theorem separated_members : (ms : List (List StringChar × JsonText)) → (memberLexemes ms).IsChain Separated
  | [] => by simp [memberLexemes]
  | (s, v) :: ms => by
      rw [memberLexemes]
      have hvalue := v.separated.append (separated_members ms) fun l _ => memberLexemes_head ms l
      refine ((hvalue.cons fun l _ => ?_).cons fun l _ => separated_string s l).cons fun l _ => separated_symbol _ l
      exact separated_symbol _ l

end

theorem space_spec : ∀ c ∈ ascii " \t\n\r", isspace c = true ∧ isdigit c = false ∧ c ≠ EOF := by decide

theorem delimits_ends {rest : List UInt8} (h : Delimits rest) : EndsNumber rest := by
  have hall : ∀ c ∈ ascii " \t\n\r,]\x7d", isdigit c = false ∧ c ≠ EOF := by decide
  exact fun c hc => hall c (h c hc)

/-- What is behind a number ends it. -/
theorem Spells.ends {l : Lexeme} {ls : List Lexeme} {text rest : List UInt8} (h : Spells ls text)
    (hchain : (l :: ls).IsChain Separated) (hrest : Delimits rest) (hl : ∃ n, l = .number n) :
    EndsNumber (text ++ rest) := by
  cases h with
  | nil => exact delimits_ends hrest
  | @cons space text l' ls hspace h =>
      rcases hchain.rel with ⟨c, hc, rfl⟩ | hno
      · cases space with
        | nil =>
            rintro d ⟨⟩
            exact ⟨(symbols_spec c hc).2.1, (symbols_spec c hc).2.2⟩
        | cons d space =>
            rintro d ⟨⟩
            exact (space_spec d (hspace d List.mem_cons_self)).2
      · obtain ⟨n, rfl⟩ := hl
        exact absurd rfl (hno n)

/-! ### Reading the parts -/

theorem getToken_space {space : List UInt8} (hspace : ∀ c ∈ space, c ∈ ascii " \t\n\r") (s : List UInt8) (lineno : Nat) :
    ∃ lineno', getToken (.at (space ++ s) lineno) = getToken (.at s lineno') := by
  induction space generalizing lineno with
  | nil => exact ⟨lineno, rfl⟩
  | cons c space ih =>
      obtain ⟨lineno', h⟩ := ih (fun d hd => hspace d (List.mem_cons_of_mem c hd)) (countLine c lineno)
      refine ⟨lineno', ?_⟩
      rw [← h]
      unfold getToken peekToken Parser.at
      simp only
      rw [List.cons_append, skipSpaces, if_pos (space_spec c (hspace c List.mem_cons_self)).1]

/-- One character of a string. -/
theorem readString_char {c : StringChar} (hc : c.Known) (stream : List UInt8) (lineno : Nat) {t : List UInt8}
    (ht : t.length < STRING_MAX) :
    readString (c.text ++ stream) lineno t = readString stream lineno (t ++ [c.value]) := by
  cases c with
  | plain c h =>
      obtain ⟨hlow, hquote, hescape⟩ := h
      have hline : c ≠ 0x0a := by
        rintro rfl
        exact absurd hlow (by decide)
      show readString (c :: stream) lineno t = _
      rw [readString.eq_def]
      simp only
      rw [if_neg (by omega), if_neg hquote, if_neg hc, if_neg hescape, countLine, if_neg hline]
      rfl
  | escaped c h =>
      have hall : ∀ c ∈ ascii "\"\\/bfnrt", c ≠ EOF ∧ c ≠ 0x75 ∧ c ≠ 0x0a := by decide
      obtain ⟨heof, hu, hline⟩ := hall c h
      show readString (0x5c :: c :: stream) lineno t = _
      rw [readString.eq_def]
      simp only
      rw [if_neg (by omega), if_neg (by decide), if_neg (by decide), if_pos trivial, if_neg heof, if_neg hu, countLine,
        if_neg hline]
      rfl
  | unicode digits h => exact hc.elim

theorem readString_chars {s : List StringChar} (hs : ∀ c ∈ s, c.Known) (rest : List UInt8) (lineno : Nat)
    {t : List UInt8} (hlen : t.length + s.length < STRING_MAX) :
    readString (s.flatMap StringChar.text ++ 0x22 :: rest) lineno t = .ok (t ++ s.map StringChar.value, rest, lineno) := by
  induction s generalizing t with
  | nil =>
      rw [List.flatMap_nil, List.nil_append, List.map_nil, List.append_nil, readString.eq_def]
      simp only
      rw [if_neg (by simp only [List.length_nil] at hlen; omega), if_pos trivial]
  | cons c s ih =>
      obtain ⟨hc, hs⟩ := List.forall_mem_cons.mp hs
      rw [List.length_cons] at hlen
      rw [List.flatMap_cons, List.append_assoc, readString_char hc _ _ (by omega),
        ih hs (by simp only [List.length_append, List.length_singleton]; omega), List.append_assoc]
      rfl

theorem readString_full (stream : List UInt8) (lineno : Nat) {t : List UInt8} (ht : t.length ≥ STRING_MAX) :
    readString stream lineno t = .error ⟨lineno, .stringLength⟩ := by
  rw [readString.eq_def]
  simp only
  rw [if_pos ht]

/-- A string that is too long, or has a character that is not known, is an error. -/
theorem readString_refuses {s : List StringChar} (rest : List UInt8) (lineno : Nat) {t : List UInt8}
    (h : ¬(t.length + s.length < STRING_MAX ∧ ∀ c ∈ s, c.Known)) :
    ∃ e, readString (s.flatMap StringChar.text ++ 0x22 :: rest) lineno t = .error e := by
  by_cases ht : t.length ≥ STRING_MAX
  · exact ⟨_, readString_full _ lineno ht⟩
  induction s generalizing t with
  | nil => exact absurd ⟨by simp only [List.length_nil]; omega, fun c hc => absurd hc List.not_mem_nil⟩ h
  | cons c s ih =>
      rw [List.flatMap_cons, List.append_assoc]
      by_cases hc : c.Known
      · rw [readString_char hc _ _ (by omega)]
        have hnext : ¬((t ++ [c.value]).length + s.length < STRING_MAX ∧ ∀ c ∈ s, c.Known) := by
          rintro ⟨hlen, hs⟩
          refine h ⟨?_, List.forall_mem_cons.mpr ⟨hc, hs⟩⟩
          simp only [List.length_append, List.length_cons, List.length_nil] at hlen ⊢
          omega
        by_cases hfull : (t ++ [c.value]).length ≥ STRING_MAX
        · exact ⟨_, readString_full _ lineno hfull⟩
        · exact ih hnext hfull
      · cases c with
        | plain c hplain =>
            have heof : c = EOF := not_not.mp hc
            refine ⟨⟨lineno, .stringEof⟩, ?_⟩
            show readString (c :: _) lineno t = _
            rw [readString.eq_def]
            simp only
            rw [if_neg ht, if_neg hplain.2.1, if_pos heof]
        | escaped c hescaped => exact absurd trivial hc
        | unicode digits hdigits =>
            refine ⟨⟨lineno, .unicode⟩, ?_⟩
            show readString (0x5c :: 0x75 :: _) lineno t = _
            rw [readString.eq_def]
            simp only
            rw [if_neg ht, if_neg (by decide), if_neg (by decide), if_pos trivial, if_neg (by decide), if_pos trivial]

/-- Digits that go on beyond the length of a number. -/
theorem readDigits_long {digits rest : List UInt8} (hdigits : ∀ c ∈ digits, isdigit c = true) (lineno : Nat)
    {s : List UInt8} (hlen : s.length + digits.length ≥ NUMBER_MAX) :
    readDigits lineno (digits ++ rest) s = .error ⟨lineno, .numberLength⟩ := by
  induction digits generalizing s with
  | nil =>
      rw [readDigits.eq_def]
      simp only
      rw [if_pos (by simpa using hlen)]
  | cons d digits ih =>
      rw [List.cons_append, readDigits.eq_def]
      simp only
      by_cases hs : s.length ≥ NUMBER_MAX
      · rw [if_pos hs]
      · rw [if_neg hs, if_pos (hdigits d List.mem_cons_self), ih fun c hc => hdigits c (List.mem_cons_of_mem d hc)]
        simp only [List.length_append, List.length_cons, List.length_nil] at hlen ⊢
        omega

/-- The sign and the integer part of a number, as the reader takes it apart. -/
theorem NumberText.start (n : NumberText) : ∃ c digits,
    (if n.minus then [0x2d] else []) ++ numeral 10 n.int = c :: digits ∧ (c = 0x2d ∨ isdigit c = true) ∧
      (∀ d ∈ digits, isdigit d = true) ∧ c :: digits ≠ [0x2d] ∧ strtoll (c :: digits) = n.value ∧
      digits.length ≤ (numeral 10 n.int).length ∧ 1 + digits.length ≤ (if n.minus then 1 else 0) + (numeral 10 n.int).length := by
  have hdigits : ∀ d ∈ numeral 10 n.int, isdigit d = true := fun d hd => by
    rw [isdigit_eq]
    exact numeral_digits (by decide) (by decide) n.int d hd
  have hvalue : ofDigits 10 (numeral 10 n.int) = n.int := ofDigits_numeral (by decide) (by decide) n.int
  cases hminus : n.minus with
  | true =>
      refine ⟨0x2d, numeral 10 n.int, rfl, Or.inl rfl, hdigits, by simp [numeral_ne_nil], ?_, Nat.le_refl _, Nat.le_refl _⟩
      show (-(ofDigits 10 (numeral 10 n.int) : Int)) = _
      rw [hvalue, NumberText.value, hminus, if_pos rfl]
  | false =>
      obtain ⟨c, digits, hnum⟩ := List.exists_cons_of_ne_nil (numeral_ne_nil 10 n.int)
      rw [hnum] at hdigits hvalue
      have hc : isdigit c = true := hdigits c List.mem_cons_self
      have hplus : c ≠ 0x2d := by
        rintro rfl
        cases hc
      refine ⟨c, digits, hnum, Or.inr hc, fun d hd => hdigits d (List.mem_cons_of_mem c hd), ?_, ?_, ?_, ?_⟩
      · rintro h
        exact hplus (List.cons.inj h).1
      · rw [strtoll, if_neg hplus, hvalue, NumberText.value, hminus, if_neg Bool.false_ne_true]
      · rw [hnum]
        exact Nat.le_succ _
      · rw [hnum, List.length_cons]
        simp only [Bool.false_eq_true, if_false]
        omega

/-- An integer of 32 bits is read up to what follows it. -/
theorem NumberText.reads (n : NumberText) (hrange : -2 ^ 31 ≤ n.value ∧ n.value ≤ 2 ^ 31 - 1) {rest : List UInt8}
    (hrest : EndsNumber rest) (lineno : Nat) :
    getToken (.at ((if n.minus then [0x2d] else []) ++ (numeral 10 n.int ++ rest)) lineno) =
      .ok (.number n.value, .at rest lineno) := by
  obtain ⟨c, digits, htext, hc, hdigits, hne, hvalue, hlen, -⟩ := n.start
  have hint : n.int < 10 ^ 10 := by
    unfold NumberText.value at hrange
    split at hrange <;> omega
  have hbound : (numeral 10 n.int).length ≤ 10 := numeral_length (by decide) (by decide) hint
  rw [← List.append_assoc, htext, List.cons_append]
  refine getToken_at (number_start c hc).2.2.2.2.2 ?_
  have hread := readToken_number hc hdigits hrest lineno (by simp only [NUMBER_MAX]; omega) hne (by rw [hvalue]; exact hrange)
  rwa [hvalue] at hread

/-- An integer beyond 32 bits is an error. -/
theorem NumberText.refuses (n : NumberText) (hrange : ¬(-2 ^ 31 ≤ n.value ∧ n.value ≤ 2 ^ 31 - 1)) {rest : List UInt8}
    (hrest : EndsNumber rest) (lineno : Nat) :
    ∃ e, getToken (.at ((if n.minus then [0x2d] else []) ++ (numeral 10 n.int ++ rest)) lineno) = .error e := by
  obtain ⟨c, digits, htext, hc, hdigits, hne, hvalue, -⟩ := n.start
  obtain ⟨h1, h2, h3, h4, h5, hspace⟩ := number_start c hc
  have hread : ∃ e, readToken (c :: (digits ++ rest)) lineno = .error e := by
    rw [readToken, if_neg h1, if_neg h2, if_neg h3, if_neg h4, if_neg h5, if_pos hc]
    by_cases hlen : 1 + digits.length < NUMBER_MAX
    · rw [readDigits_text hdigits hrest lineno (by simpa using hlen)]
      refine ⟨⟨lineno, .numberRange⟩, ?_⟩
      show (if c :: digits = [0x2d] then _ else if strtoll (c :: digits) < _ ∨ strtoll (c :: digits) > _ then _ else _) = _
      rw [if_neg hne, if_pos (by rw [hvalue]; omega)]
    · rw [readDigits_long hdigits lineno (by simpa using hlen)]
      exact ⟨_, rfl⟩
  obtain ⟨e, hread⟩ := hread
  refine ⟨e, ?_⟩
  rw [← List.append_assoc, htext, List.cons_append]
  unfold getToken peekToken Parser.at
  simp only
  rw [show skipSpaces (c :: (digits ++ rest)) lineno = (c :: (digits ++ rest), lineno) by simp [skipSpaces, hspace], hread]
  rfl

theorem getToken_fails {c : UInt8} {stream : List UInt8} {lineno : Nat} (hc : isspace c = false)
    (h : ∃ e, readToken (c :: stream) lineno = .error e) : ∃ e, getToken (.at (c :: stream) lineno) = .error e := by
  obtain ⟨e, h⟩ := h
  refine ⟨e, ?_⟩
  unfold getToken peekToken Parser.at
  simp only
  rw [show skipSpaces (c :: stream) lineno = (c :: stream, lineno) by simp [skipSpaces, hc], h]
  rfl

/-- The characters that a fraction and an exponent start with are no tokens. -/
theorem readToken_part : ∀ c ∈ ascii ".eE", ∀ stream lineno,
    isspace c = false ∧ isdigit c = false ∧ c ≠ EOF ∧ ∃ e, readToken (c :: stream) lineno = .error e := by
  intro c hc stream lineno
  have hall : ∀ c ∈ ascii ".eE", isspace c = false ∧ isdigit c = false ∧ c ≠ EOF ∧ c ∉ symbols ∧ c ≠ 0x74 ∧ c ≠ 0x66 ∧
      c ≠ 0x6e ∧ ¬(c = 0x2d ∨ isdigit c = true) ∧ c ≠ 0x22 := by
    decide
  obtain ⟨hspace, hdigit, heof, h1, h2, h3, h4, h5, h6⟩ := hall c hc
  refine ⟨hspace, hdigit, heof, ⟨countLine c lineno, .badToken c⟩, ?_⟩
  rw [readToken, if_neg h1, if_neg heof, if_neg h2, if_neg h3, if_neg h4, if_neg h5, if_neg h6]

theorem NumberText.part (n : NumberText) (h : n.frac ++ n.exp ≠ []) :
    ∃ c tail, n.frac ++ n.exp = c :: tail ∧ c ∈ ascii ".eE" := by
  have hexp : ∀ c ∈ ascii "eE", c ∈ ascii ".eE" := by decide
  rcases n.frac_form with hfrac | ⟨digits, hfrac, -⟩
  · rcases n.exp_form with hexp' | ⟨e, sign, digits, hexp', he, -⟩
    · exact absurd (by rw [hfrac, hexp']; rfl) h
    · exact ⟨e, sign ++ digits, by rw [hfrac, hexp']; rfl, hexp e he⟩
  · exact ⟨0x2e, digits ++ n.exp, by rw [hfrac]; rfl, by decide⟩

/-- A part that the reader has a token for is read as it. -/
theorem Lexeme.reads {l : Lexeme} (hl : l.Known) {rest : List UInt8} (hrest : (∃ n, l = .number n) → EndsNumber rest)
    (lineno : Nat) : getToken (.at (l.text ++ rest) lineno) = .ok (l.token, .at rest lineno) := by
  cases l with
  | symbol c hc => exact getToken_symbol hc rest lineno
  | null =>
      refine getToken_at (c := 0x6e) (by decide) ?_
      have hword : readWord 0x6e [0x75, 0x6c, 0x6c] (0x75 :: 0x6c :: 0x6c :: rest) lineno = .ok rest := by
        simp [readWord]
      rw [readToken, if_neg (by decide), if_neg (by decide), if_neg (by decide), if_neg (by decide), if_pos rfl]
      show (readWord 0x6e [0x75, 0x6c, 0x6c] (0x75 :: 0x6c :: 0x6c :: rest) lineno).map _ = _
      rw [hword]
      rfl
  | bool b =>
      cases b with
      | true =>
          refine getToken_at (c := 0x74) (by decide) ?_
          have hword : readWord 0x74 [0x72, 0x75, 0x65] (0x72 :: 0x75 :: 0x65 :: rest) lineno = .ok rest := by
            simp [readWord]
          rw [readToken, if_neg (by decide), if_neg (by decide), if_pos rfl]
          show (readWord 0x74 [0x72, 0x75, 0x65] (0x72 :: 0x75 :: 0x65 :: rest) lineno).map _ = _
          rw [hword]
          rfl
      | false =>
          refine getToken_at (c := 0x66) (by decide) ?_
          have hword : readWord 0x66 [0x61, 0x6c, 0x73, 0x65] (0x61 :: 0x6c :: 0x73 :: 0x65 :: rest) lineno = .ok rest := by
            simp [readWord]
          rw [readToken, if_neg (by decide), if_neg (by decide), if_neg (by decide), if_pos rfl]
          show (readWord 0x66 [0x61, 0x6c, 0x73, 0x65] (0x61 :: 0x6c :: 0x73 :: 0x65 :: rest) lineno).map _ = _
          rw [hword]
          rfl
  | number n =>
      obtain ⟨hfrac, hexp, hrange⟩ := hl
      have htext : Lexeme.text (.number n) ++ rest =
          (if n.minus then [0x2d] else []) ++ (numeral 10 n.int ++ rest) := by
        simp [Lexeme.text, NumberText.text, hfrac, hexp]
      rw [htext]
      exact n.reads hrange (hrest ⟨n, rfl⟩) lineno
  | string s =>
      have htext : Lexeme.text (.string s) ++ rest = 0x22 :: (s.flatMap StringChar.text ++ 0x22 :: rest) := by
        simp [Lexeme.text]
      rw [htext]
      refine getToken_at (by decide) ?_
      rw [readToken_string, readString_chars hl.2 rest lineno (by simpa using hl.1)]
      rfl

/-- In front of a part that it has no token for, the reader fails, or stops inside of it and fails there. -/
theorem Lexeme.refuses {l : Lexeme} (hl : ¬l.Known) {rest : List UInt8} (hrest : (∃ n, l = .number n) → EndsNumber rest)
    (lineno : Nat) : (∃ e, getToken (.at (l.text ++ rest) lineno) = .error e) ∨
      ∃ t stream, getToken (.at (l.text ++ rest) lineno) = .ok (t, .at stream lineno) ∧ rest.length < stream.length ∧
        ∃ e, getToken (.at stream lineno) = .error e := by
  cases l with
  | symbol c hc => exact absurd trivial hl
  | null => exact absurd trivial hl
  | bool b => exact absurd trivial hl
  | number n =>
      have htext : Lexeme.text (.number n) ++ rest =
          (if n.minus then [0x2d] else []) ++ (numeral 10 n.int ++ (n.frac ++ n.exp ++ rest)) := by
        simp [Lexeme.text, NumberText.text]
      rw [htext]
      by_cases hpart : n.frac ++ n.exp = []
      · obtain ⟨hfrac, hexp⟩ := List.append_eq_nil_iff.mp hpart
        rw [hpart, List.nil_append]
        exact Or.inl (n.refuses (fun hrange => hl ⟨hfrac, hexp, hrange⟩) (hrest ⟨n, rfl⟩) lineno)
      · obtain ⟨c, tail, heq, hc⟩ := n.part hpart
        rw [heq, List.cons_append]
        obtain ⟨hspace, hdigit, heof, hfails⟩ := readToken_part c hc (tail ++ rest) lineno
        have hends : EndsNumber (c :: (tail ++ rest)) := by
          rintro d ⟨⟩
          exact ⟨hdigit, heof⟩
        by_cases hrange : -2 ^ 31 ≤ n.value ∧ n.value ≤ 2 ^ 31 - 1
        · refine Or.inr ⟨_, _, n.reads hrange hends lineno, ?_, getToken_fails hspace hfails⟩
          simp only [List.length_cons, List.length_append]
          omega
        · exact Or.inl (n.refuses hrange hends lineno)
  | string s =>
      have htext : Lexeme.text (.string s) ++ rest = 0x22 :: (s.flatMap StringChar.text ++ 0x22 :: rest) := by
        simp [Lexeme.text]
      obtain ⟨e, he⟩ := readString_refuses (s := s) rest lineno (t := []) (by simpa [Lexeme.Known] using hl)
      rw [htext]
      refine Or.inl (getToken_fails (by decide) ⟨e, ?_⟩)
      rw [readToken_string, he]
      rfl

/-! ### Reading a value -/

/-- Parts that the reader has tokens for are read as these. -/
theorem Spells.reads {ls : List Lexeme} {text : List UInt8} (h : Spells ls text) (hchain : ls.IsChain Separated)
    (hknown : ∀ l ∈ ls, l.Known) {rest : List UInt8} (hrest : Delimits rest) (lineno : Nat) :
    ∃ lineno', Reads (.at (text ++ rest) lineno) (ls.map Lexeme.token) (.at rest lineno') := by
  induction h generalizing lineno with
  | nil => exact ⟨lineno, rfl⟩
  | @cons space text l ls hspace h ih =>
      obtain ⟨hl, hls⟩ := List.forall_mem_cons.mp hknown
      obtain ⟨lineno₁, hget⟩ := getToken_space hspace (l.text ++ (text ++ rest)) lineno
      obtain ⟨lineno₂, hreads⟩ := ih hchain.tail hls lineno₁
      rw [Lexeme.reads hl (h.ends hchain hrest)] at hget
      refine ⟨lineno₂, _, ?_, hreads⟩
      rwa [List.append_assoc, List.append_assoc]

/-- A reader that comes to the end of the parts has tokens for all of them. -/
theorem Spells.known {ls : List Lexeme} {text : List UInt8} (h : Spells ls text) (hchain : ls.IsChain Separated)
    {rest : List UInt8} (hrest : Delimits rest) {lineno lineno' : Nat} {ts : List Token}
    (hreads : Reads (.at (text ++ rest) lineno) ts (.at rest lineno')) : ∀ l ∈ ls, l.Known := by
  induction h generalizing lineno ts with
  | nil => exact fun l hl => absurd hl List.not_mem_nil
  | @cons space text l ls hspace h ih =>
      obtain ⟨lineno₁, hget⟩ := getToken_space hspace (l.text ++ (text ++ rest)) lineno
      have htext : 0 < l.text.length := by
        cases l with
        | bool b => cases b <;> decide
        | number n =>
            have := List.length_pos_iff.mpr (numeral_ne_nil 10 n.int)
            simp only [Lexeme.text, NumberText.text, List.length_append]
            omega
        | _ => simp [Lexeme.text, ascii]
      rw [List.append_assoc, List.append_assoc] at hreads
      cases ts with
      | nil =>
          have hlen := congrArg (fun p => p.stream.length) hreads
          simp only [Parser.at, List.length_append] at hlen
          omega
      | cons t ts =>
          obtain ⟨r, ht, hreads⟩ := hreads
          rw [hget] at ht
          have hl : l.Known := by
            by_contra hl
            rcases Lexeme.refuses hl (h.ends hchain hrest) lineno₁ with ⟨e, he⟩ | ⟨t', stream, ht', hlen, e, he⟩
            · rw [he] at ht
              cases ht
            · rw [ht'] at ht
              cases ht
              cases ts with
              | nil =>
                  have heq := congrArg (fun p => p.stream.length) hreads
                  simp only [Parser.at] at heq
                  rw [List.length_append] at hlen
                  omega
              | cons u ts =>
                  obtain ⟨s, hs, -⟩ := hreads
                  rw [he] at hs
                  cases hs
          rw [Lexeme.reads hl (h.ends hchain hrest)] at ht
          cases ht
          exact List.forall_mem_cons.mpr ⟨hl, ih hchain.tail hreads⟩

theorem Json.tokens_ne_nil (v : Json) : v.tokens ≠ [] := by
  obtain ⟨t, ts, h, -⟩ := v.tokens_head
  rw [h]
  exact List.cons_ne_nil t ts

/-- Tokens are read alike from two parsers that have the same next token. -/
theorem reads_congr {p p' q : Parser} (h : getToken p = getToken p') {ts : List Token} (hts : ts ≠ []) :
    Reads p ts q ↔ Reads p' ts q := by
  cases ts with
  | nil => exact absurd rfl hts
  | cons t ts => rw [Reads, Reads, h]

theorem null_mem_tokens {ls : List Lexeme} : Token.null ∈ ls.map Lexeme.token ↔ Lexeme.null ∈ ls := by
  rw [List.mem_map]
  constructor
  · rintro ⟨l, hl, ht⟩
    cases l <;> first | exact hl | cases ht
  · exact fun h => ⟨_, h, rfl⟩

/-- **Unknown parameters.** The text of a value, with the first token read ahead or not, is skipped up to what follows
it if and only if none of its parts is `null` and the reader has a token for each of them. In front of tokens that are
not those of any value, an error of the reader is returned. -/
theorem parameter_skipped (p : Parser) :
    (∀ (v : JsonText) (text rest : List UInt8) (lineno : Nat), Spells v.lexemes text → Delimits rest →
      getToken p = getToken (.at (text ++ rest) lineno) →
      ((∃ lineno', parseAndDiscardObject p = .ok (.at rest lineno')) ↔ ∀ l ∈ v.lexemes, l ≠ .null ∧ l.Known)) ∧
    ((¬∃ (v : Json) (q : Parser), Reads p v.tokens q) →
      ∃ e, parseAndDiscardObject p = .error e ∧ e.kind ≠ .fuel) := by
  refine ⟨fun v text rest lineno htext hrest hp => ?_, discard_refuses⟩
  have hreads : (∀ l ∈ v.lexemes, l.Known) → ∃ lineno', Reads p v.value.tokens (.at rest lineno') := by
    intro hknown
    obtain ⟨lineno', h⟩ := htext.reads v.separated hknown hrest lineno
    rw [← v.value_tokens, ← reads_congr hp v.value.tokens_ne_nil] at h
    exact ⟨lineno', h⟩
  constructor
  · rintro ⟨lineno', hok⟩
    obtain ⟨w, hw, -⟩ := reads_of_discard hok
    have hknown := htext.known v.separated hrest ((reads_congr hp w.tokens_ne_nil).mp hw)
    obtain ⟨lineno₂, h⟩ := hreads hknown
    refine fun l hl => ⟨?_, hknown l hl⟩
    rintro rfl
    have hnull : Token.null ∈ v.value.tokens := by
      rw [v.value_tokens]
      exact null_mem_tokens.mpr hl
    obtain ⟨lineno₃, herror⟩ := (discardValue_reads v.value p _ (2 * p.size + 1) h
      (by have := h.size v.value.eof_not_mem; omega)).2 hnull
    rw [parseAndDiscardObject, herror] at hok
    cases hok
  · intro hparts
    obtain ⟨lineno', h⟩ := hreads fun l hl => (hparts l hl).2
    refine ⟨lineno', (discard_tokens h).mpr fun hnull => ?_⟩
    rw [v.value_tokens, null_mem_tokens] at hnull
    exact (hparts _ hnull).1 rfl

/-- The number 1. -/
def oneText : NumberText := ⟨false, 1, [], [], Or.inl rfl, Or.inl rfl⟩

/-- An object with an array. -/
def sampleText : JsonText := .object [([.plain 0x61 (by decide)], .array [.number oneText, .bool true])]

theorem sampleText_spelled : Spells sampleText.lexemes (ascii "\x7b\"a\": [1, true]\x7d") := by
  have hnone : ∀ c ∈ ([] : List UInt8), c ∈ ascii " \t\n\r" := by decide
  have hspace : ∀ c ∈ [(0x20 : UInt8)], c ∈ ascii " \t\n\r" := by decide
  have hclose := Spells.cons hnone (l := .symbol 0x7d (by decide)) Spells.nil
  have hitem := Spells.cons hspace (l := .bool true) (Spells.cons hnone (l := .symbol 0x5d (by decide)) hclose)
  have hitems := Spells.cons hnone (l := .number oneText) (Spells.cons hnone (l := .comma) hitem)
  have harray := Spells.cons hspace (l := .symbol 0x5b (by decide)) hitems
  have hmember := Spells.cons hnone (l := .string [.plain 0x61 (by decide)]) (Spells.cons hnone (l := .colon) harray)
  exact Spells.cons hnone (l := .symbol 0x7b (by decide)) hmember

theorem sample_skipped :
    (∃ lineno, parseAndDiscardObject (.at (ascii "\x7b\"a\": [1, true]\x7d" ++ ascii ", 2") 1) =
      .ok (.at (ascii ", 2") lineno)) ∧
    ∃ e, parseAndDiscardObject (.at (ascii "[1,]") 1) = .error e ∧ e.kind ≠ .fuel := by
  constructor
  · refine ((parameter_skipped _).1 sampleText _ _ 1 sampleText_spelled (by unfold Delimits; decide) rfl).mpr ?_
    have hstring : Lexeme.Known (.string [.plain 0x61 (by decide)]) := by
      refine ⟨by decide, fun c hc => ?_⟩
      rw [List.mem_singleton.mp hc]
      exact (by decide : (0x61 : UInt8) ≠ EOF)
    have hnumber : Lexeme.Known (.number oneText) := ⟨rfl, rfl, by decide, by decide⟩
    simp [sampleText, JsonText.lexemes, itemLexemes, memberLexemes, Lexeme.comma, Lexeme.colon, hstring, hnumber]
    simp [Lexeme.Known]
  · refine (parameter_skipped (.at (ascii "[1,]") 1)).2 ?_
    rintro ⟨v, q, h⟩
    have hresult : parseAndDiscardObject (.at (ascii "[1,]") 1) = .error ⟨1, .unexpected "JSON object" 0x5d⟩ := by
      decide +kernel
    have hdiscards := discardValue_reads v _ q (2 * Parser.size (.at (ascii "[1,]") 1) + 1) h
      (by have := h.size v.eof_not_mem; omega)
    rw [← parseAndDiscardObject, hresult] at hdiscards
    by_cases hnull : Token.null ∈ v.tokens
    · obtain ⟨lineno, herror⟩ := hdiscards.2 hnull
      cases herror
    · cases hdiscards.1 hnull

/-- A parameter without a value stops the reader, and of a fraction only the integer part is skipped. -/
theorem null_refused :
    (Spells JsonText.null.lexemes (ascii "null") ∧ Delimits (ascii ", 2") ∧
      parseAndDiscardObject (.at (ascii "null" ++ ascii ", 2") 1) = .error ⟨1, .unexpected "JSON object" TOKEN_NULL⟩) ∧
    parseAndDiscardObject (.at (ascii "1.5" ++ ascii ", 2") 1) = .ok (.at (ascii ".5, 2") 1) := by
  refine ⟨⟨Spells.cons (l := .null) (fun c hc => absurd hc List.not_mem_nil) Spells.nil, ?_, ?_⟩, ?_⟩
  · unfold Delimits
    decide
  · decide +kernel
  · decide +kernel

end E9Patch
