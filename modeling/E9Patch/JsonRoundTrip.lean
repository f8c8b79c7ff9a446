import E9Patch.FrontendModel
import E9Patch.JsonModel
import E9Patch.Fallible

/-!
The backend reads what the frontend writes. Every token is read up to where the text of the value ends:
the reader of strings takes one escaped character after the other, and numbers end at the first character
that is no digit. The exception is the byte `FF` in a string, which ends the file.
-/

namespace E9Patch
open Bytes Numerals Fallible E9Tool

set_option maxRecDepth 20000

/-! ### Tokens -/

/-- A parser in front of a text, with no token read ahead. -/
def Parser.at (stream : List UInt8) (lineno : Nat) : Parser := ⟨stream, lineno, none⟩

theorem getToken_at {c : UInt8} {stream rest : List UInt8} {lineno lineno' : Nat} {token : Token}
    (hc : isspace c = false) (h : readToken (c :: stream) lineno = .ok (token, rest, lineno')) :
    getToken (.at (c :: stream) lineno) = .ok (token, .at rest lineno') := by
  unfold getToken peekToken Parser.at
  simp only
  rw [show skipSpaces (c :: stream) lineno = (c :: stream, lineno) by simp [skipSpaces, hc], h]
  rfl

theorem symbols_spec : ∀ c ∈ symbols, isspace c = false ∧ isdigit c = false ∧ c ≠ EOF := by decide

theorem getToken_symbol {c : UInt8} (hc : c ∈ symbols) (rest : List UInt8) (lineno : Nat) :
    getToken (.at (c :: rest) lineno) = .ok (.symbol c, .at rest lineno) := by
  exact getToken_at (symbols_spec c hc).1 (by rw [readToken, if_pos hc])

theorem expectTokens_ok {p q : Parser} {token : Token} {tokens : List UInt8}
    (h : getToken p = .ok (token, q)) (hkind : token.kind ∈ tokens) :
    expectTokens p tokens = .ok (token, q) := by
  unfold expectTokens
  rw [h, bind_ok]
  refine ⟨_, rfl, ?_⟩
  rw [if_pos hkind]

theorem expectToken_symbol {c : UInt8} (hc : c ∈ symbols) (rest : List UInt8) (lineno : Nat) :
    expectToken (.at (c :: rest) lineno) c = .ok (.symbol c, .at rest lineno) :=
  expectTokens_ok (getToken_symbol hc rest lineno) (List.mem_singleton_self c)

/-! ### Strings -/

/-- The characters that are sent as they are. -/
def isPlain (c : UInt8) : Bool :=
  c ≠ 0x5c ∧ c ≠ 0x22 ∧ c ≠ 0x0a ∧ c ≠ 0x09 ∧ c ≠ 0x0d ∧ c ≠ 0x08 ∧ c ≠ 0x0c

/-- The other characters are escaped by one that `unescape` takes back. -/
theorem escape_spec : ∀ c : UInt8, (isPlain c = true ∧ escape c = [c]) ∨
    ∃ d, escape c = [0x5c, d] ∧ d ≠ EOF ∧ d ≠ 0x75 ∧ d ≠ 0x0a ∧ unescape d = c := by
  intro c
  by_cases h : isPlain c = true
  · refine Or.inl ⟨h, ?_⟩
    simp only [isPlain, decide_eq_true_eq] at h
    obtain ⟨h1, h2, h3, h4, h5, h6, h7⟩ := h
    rw [escape, if_neg h1, if_neg h2, if_neg h3, if_neg h4, if_neg h5, if_neg h6, if_neg h7]
  · refine Or.inr ?_
    simp only [isPlain, decide_eq_true_eq, not_and_or, not_not] at h
    rcases h with rfl | rfl | rfl | rfl | rfl | rfl | rfl
    · exact ⟨0x5c, by decide⟩
    · exact ⟨0x22, by decide⟩
    · exact ⟨0x6e, by decide⟩
    · exact ⟨0x74, by decide⟩
    · exact ⟨0x72, by decide⟩
    · exact ⟨0x62, by decide⟩
    · exact ⟨0x66, by decide⟩

/-- One character of a string. -/
theorem readString_escape {c : UInt8} (hc : c ≠ EOF) (stream : List UInt8) (lineno : Nat) {s : List UInt8}
    (hs : s.length < STRING_MAX) :
    readString (escape c ++ stream) lineno s = readString stream lineno (s ++ [c]) := by
  rcases escape_spec c with ⟨hplain, hesc⟩ | ⟨d, hesc, h1, h2, h3, hun⟩
  · simp only [isPlain, decide_eq_true_eq] at hplain
    obtain ⟨h1, h2, h3, -⟩ := hplain
    rw [hesc, List.singleton_append, readString.eq_def]
    simp only
    rw [if_neg (by omega), if_neg h2, if_neg hc, if_neg h1, countLine, if_neg h3]
  · rw [hesc, List.cons_append, List.singleton_append, readString.eq_def]
    simp only
    rw [if_neg (by omega), if_neg (by decide), if_neg (by decide), if_pos trivial, if_neg h1, if_neg h2, hun,
      countLine, if_neg h3]

theorem readString_text {s : List UInt8} (h : EOF ∉ s) (rest : List UInt8) (lineno : Nat) {t : List UInt8}
    (hlen : t.length + s.length < STRING_MAX) :
    readString (s.flatMap escape ++ 0x22 :: rest) lineno t = .ok (t ++ s, rest, lineno) := by
  induction s generalizing t with
  | nil =>
      rw [List.flatMap_nil, List.nil_append, List.append_nil, readString.eq_def]
      simp only
      rw [if_neg (by simp only [List.length_nil] at hlen; omega), if_pos trivial]
  | cons c s ih =>
      rw [List.length_cons] at hlen
      have hc : c ≠ EOF := fun hc => h (by simp [hc])
      rw [List.flatMap_cons, List.append_assoc, readString_escape hc _ _ (by omega),
        ih (fun hs => h (by simp [hs])) (by simp only [List.length_append, List.length_singleton]; omega),
        List.append_assoc]
      rfl

/-- The byte `FF` is not read. -/
theorem readString_eof {s : List UInt8} (h : EOF ∈ s) (rest : List UInt8) (lineno : Nat) {t : List UInt8}
    (hlen : t.length + s.length < STRING_MAX) :
    readString (s.flatMap escape ++ 0x22 :: rest) lineno t = .error ⟨lineno, .stringEof⟩ := by
  induction s generalizing t with
  | nil => cases h
  | cons c s ih =>
      rw [List.length_cons] at hlen
      by_cases hc : c = EOF
      · have hesc : escape c = [c] := by
          rw [hc]
          decide
        rw [List.flatMap_cons, hesc, hc, readString.eq_def]
        simp only [List.cons_append]
        rw [if_neg (by omega), if_neg (by decide), if_pos trivial]
      · have hs : EOF ∈ s := (List.mem_cons.mp h).resolve_left fun he => hc he.symm
        rw [List.flatMap_cons, List.append_assoc, readString_escape hc _ _ (by omega),
          ih hs (by simp only [List.length_append, List.length_singleton]; omega)]

theorem cString_self {s : List UInt8} (h : 0 ∉ s) : cString s = s := by
  have hall : ∀ c ∈ s, decide (c ≠ 0) = true := fun c hc => decide_eq_true fun h0 => h (h0 ▸ hc)
  have htake : (s ++ []).takeWhile _ = s ++ [].takeWhile _ := List.takeWhile_append_of_pos hall
  rwa [List.append_nil, List.takeWhile_nil, List.append_nil] at htake

theorem readToken_string (stream : List UInt8) (lineno : Nat) :
    readToken (0x22 :: stream) lineno = (do
      let r ← readString stream lineno []
      .ok (.string (cString r.1), r.2.1, r.2.2)) := by
  rw [readToken, if_neg (by decide), if_neg (by decide), if_neg (by decide), if_neg (by decide),
    if_neg (by decide), if_neg (by decide), if_pos rfl]

theorem sendString_append (s rest : List UInt8) :
    sendString s ++ rest = 0x22 :: (s.flatMap escape ++ 0x22 :: rest) := by
  simp [sendString]

theorem getToken_sendString {s : List UInt8} (h0 : 0 ∉ s) (h : EOF ∉ s) (hlen : s.length < STRING_MAX)
    (rest : List UInt8) (lineno : Nat) :
    getToken (.at (sendString s ++ rest) lineno) = .ok (.string s, .at rest lineno) := by
  rw [sendString_append]
  refine getToken_at (by decide) ?_
  rw [readToken_string, readString_text h rest lineno (by simpa using hlen), bind_ok]
  refine ⟨_, rfl, ?_⟩
  simp only [List.nil_append]
  rw [cString_self h0]

/-- A string is read back exactly if it does not have the byte `FF`. -/
theorem parseString_sendString {s : List UInt8} (h0 : 0 ∉ s) (hlen : s.length < STRING_MAX)
    (rest : List UInt8) (lineno : Nat) :
    parseString (.at (sendString s ++ rest) lineno) = .ok (s, .at rest lineno) ↔ 0xff ∉ s := by
  constructor
  · intro h hff
    rw [sendString_append] at h
    have herr := readString_eof hff rest lineno (t := []) (by simpa using hlen)
    unfold parseString expectToken expectTokens getToken peekToken Parser.at at h
    simp only at h
    rw [show skipSpaces (0x22 :: (s.flatMap escape ++ 0x22 :: rest)) lineno =
      (0x22 :: (s.flatMap escape ++ 0x22 :: rest), lineno) by simp [skipSpaces, isspace]] at h
    simp only at h
    rw [readToken_string, herr] at h
    cases h
  · intro h
    have htoken : expectToken (.at (sendString s ++ rest) lineno) TOKEN_STRING = .ok (.string s, .at rest lineno) :=
      expectTokens_ok (getToken_sendString h0 h hlen rest lineno) (List.mem_singleton_self _)
    unfold parseString
    rw [htoken]
    rfl

/-! ### Numbers -/

theorem isdigit_eq : ∀ c, isdigit c = isDigit 10 c := by decide

/-- A text that ends a number. -/
def EndsNumber (rest : List UInt8) : Prop := ∀ c ∈ rest.head?, isdigit c = false ∧ c ≠ EOF

theorem readDigits_text {digits rest : List UInt8} (hdigits : ∀ c ∈ digits, isdigit c = true)
    (hrest : EndsNumber rest) (lineno : Nat) {s : List UInt8} (hlen : s.length + digits.length < NUMBER_MAX) :
    readDigits lineno (digits ++ rest) s = .ok (s ++ digits, rest) := by
  induction digits generalizing s with
  | nil =>
      rw [List.length_nil] at hlen
      rw [List.nil_append, List.append_nil, readDigits.eq_def]
      simp only
      rw [if_neg (by omega)]
      cases rest with
      | nil => rfl
      | cons c rest =>
          obtain ⟨h1, h2⟩ := hrest c rfl
          simp only [h1, if_neg h2, Bool.false_eq_true, if_false]
  | cons d digits ih =>
      rw [List.length_cons] at hlen
      have hd : isdigit d = true := hdigits d (by simp)
      rw [List.cons_append, readDigits.eq_def]
      simp only
      rw [if_neg (by omega), if_pos hd, ih (fun c hc => hdigits c (by simp [hc])) (by rw [List.length_append, List.length_singleton]; omega),
        List.append_assoc, List.singleton_append]

/-- The characters that a number starts with are no other tokens. -/
theorem number_start : ∀ c : UInt8, c = 0x2d ∨ isdigit c = true →
    c ∉ symbols ∧ c ≠ EOF ∧ c ≠ 0x74 ∧ c ≠ 0x66 ∧ c ≠ 0x6e ∧ isspace c = false := by decide

theorem readToken_number {c : UInt8} (hc : c = 0x2d ∨ isdigit c = true) {digits rest : List UInt8}
    (hdigits : ∀ d ∈ digits, isdigit d = true) (hrest : EndsNumber rest) (lineno : Nat)
    (hlen : 1 + digits.length < NUMBER_MAX) (hne : c :: digits ≠ [0x2d])
    (hrange : -2 ^ 31 ≤ strtoll (c :: digits) ∧ strtoll (c :: digits) ≤ 2 ^ 31 - 1) :
    readToken (c :: (digits ++ rest)) lineno = .ok (.number (strtoll (c :: digits)), rest, lineno) := by
  obtain ⟨h1, h2, h3, h4, h5, -⟩ := number_start c hc
  rw [readToken, if_neg h1, if_neg h2, if_neg h3, if_neg h4, if_neg h5, if_pos hc,
    readDigits_text hdigits hrest lineno (by simpa using hlen), bind_ok]
  refine ⟨_, rfl, ?_⟩
  simp only [List.singleton_append]
  rw [if_neg hne, if_neg (by omega)]

/-- A number of 32 bits is read back. -/
theorem getToken_signedNumeral {i : Int} (hi : -2 ^ 31 ≤ i ∧ i ≤ 2 ^ 31 - 1) {rest : List UInt8}
    (hrest : EndsNumber rest) (lineno : Nat) :
    getToken (.at (signedNumeral i ++ rest) lineno) = .ok (.number i, .at rest lineno) := by
  have hdigits : ∀ n, ∀ c ∈ numeral 10 n, isdigit c = true := fun n c hc => by
    rw [isdigit_eq]
    exact numeral_digits (by decide) (by decide) n c hc
  have hlen : ∀ {n : Nat}, n ≤ 2 ^ 31 → (numeral 10 n).length ≤ 10 := fun hn =>
    numeral_length (by decide) (by decide) (by omega)
  unfold signedNumeral
  split
  · have hvalue : strtoll (0x2d :: numeral 10 (-i).toNat) = i := by
      show (-(ofDigits 10 (numeral 10 (-i).toNat) : Int)) = i
      rw [ofDigits_numeral (by decide) (by decide)]
      omega
    have hread := readToken_number (Or.inl rfl) (hdigits (-i).toNat) hrest lineno
      (by have := hlen (n := (-i).toNat) (by omega); simp only [NUMBER_MAX]; omega)
      (by simp [numeral_ne_nil]) (by rw [hvalue]; exact hi)
    rw [hvalue] at hread
    exact getToken_at (by decide) hread
  · obtain ⟨c, digits, hnum⟩ := List.exists_cons_of_ne_nil (numeral_ne_nil 10 i.toNat)
    have hall := hdigits i.toNat
    have hbound := hlen (n := i.toNat) (by omega)
    rw [hnum] at hall hbound
    rw [List.length_cons] at hbound
    have hc : isdigit c = true := hall c (by simp)
    have hvalue : strtoll (c :: digits) = i := by
      have hminus : c ≠ 0x2d := by
        rintro rfl
        cases hc
      rw [strtoll, if_neg hminus, ← hnum, ofDigits_numeral (by decide) (by decide)]
      omega
    have hread := readToken_number (Or.inr hc) (fun d hd => hall d (List.mem_cons_of_mem c hd)) hrest lineno
      (by simp only [NUMBER_MAX]; omega)
      (by rintro h; cases h; cases hc) (by rw [hvalue]; exact hi)
    rw [hvalue] at hread
    rw [hnum]
    exact getToken_at (number_start c (Or.inr hc)).2.2.2.2.2 hread

/-! ### Integers -/

/-- The text of an integer that is sent as a string. -/
def hexText (i : Int) : List UInt8 :=
  (if i < 0 then [0x2d] else []) ++ (ascii "0x" ++ numeral 16 (toU64 (if i < 0 then -i else i)))

theorem hexText_plain (i : Int) : ∀ c ∈ hexText i, isPlain c = true ∧ c ≠ EOF ∧ c ≠ 0 := by
  have hdigit : ∀ c, isDigit 16 c = true → isPlain c = true ∧ c ≠ EOF ∧ c ≠ 0 := by decide
  have hascii : ∀ c ∈ ascii "0x", isPlain c = true ∧ c ≠ EOF ∧ c ≠ 0 := by decide
  intro c hc
  unfold hexText at hc
  rcases List.mem_append.mp hc with hc | hc
  · split at hc
    · obtain rfl := List.mem_singleton.mp hc
      decide
    · cases hc
  · rcases List.mem_append.mp hc with hc | hc
    · exact hascii c hc
    · exact hdigit c (numeral_digits (by decide) (by decide) _ c hc)

theorem flatMap_escape {s : List UInt8} (h : ∀ c ∈ s, isPlain c = true) : s.flatMap escape = s := by
  induction s with
  | nil => rfl
  | cons c s ih =>
      have hc : escape c = [c] := by
        rcases escape_spec c with ⟨-, hesc⟩ | ⟨d, hesc, -, -, -, hun⟩
        · exact hesc
        · have hplain := h c (by simp)
          unfold escape
          simp only [isPlain, decide_eq_true_eq] at hplain
          obtain ⟨h1, h2, h3, h4, h5, h6, h7⟩ := hplain
          rw [if_neg h1, if_neg h2, if_neg h3, if_neg h4, if_neg h5, if_neg h6, if_neg h7]
      rw [List.flatMap_cons, hc, ih fun d hd => h d (by simp [hd])]
      rfl

/-- The range of 64-bit integers. -/
def IsInt64 (i : Int) : Prop := INTPTR_MIN ≤ i ∧ i ≤ INTPTR_MAX

theorem toU64_abs {i : Int} (hi : IsInt64 i) :
    (toU64 (if i < 0 then -i else i) : Int) = (if i < 0 then -i else i) ∧ toU64 (if i < 0 then -i else i) < 2 ^ 64 := by
  simp only [IsInt64, INTPTR_MIN, INTPTR_MAX] at hi
  unfold toU64
  split <;> omega

/-- Reading a number in base 16, in front of what is no digit. -/
theorem strtoull_hex_then {n : Nat} (hn : n < 2 ^ 64) {rest : List UInt8}
    (hrest : ∀ c ∈ rest.head?, isDigit 16 c = false) : strtoull (ascii "0x" ++ numeral 16 n ++ rest) 16 = (n, rest, false) := by
  obtain ⟨c, digits, hnum⟩ := List.exists_cons_of_ne_nil (numeral_ne_nil 16 n)
  have hc : isDigit 16 c = true := numeral_digits (by decide) (by decide) n c (by rw [hnum]; simp)
  have hspan : spanDigits 16 (numeral 16 n ++ rest) = (numeral 16 n, rest) :=
    spanDigits_numeral (by decide) (by decide) n hrest
  have hhex : ascii "0x" ++ numeral 16 n ++ rest = 0x30 :: 0x78 :: (numeral 16 n ++ rest) := rfl
  have hspace : (0x30 :: 0x78 :: (numeral 16 n ++ rest)).dropWhile isspace = 0x30 :: 0x78 :: (numeral 16 n ++ rest) := by
    rw [List.dropWhile_cons, if_neg (by decide)]
  have htext : True ∧ (0x30 :: 0x78 :: (numeral 16 n ++ rest)).take 2 = ascii "0x" ∧
      ((0x30 :: 0x78 :: (numeral 16 n ++ rest)).drop 2).head?.any (isDigit 16) = true := by
    refine ⟨trivial, rfl, ?_⟩
    show (numeral 16 n ++ rest).head?.any (isDigit 16) = true
    rw [hnum]
    exact hc
  have hsign : ¬(some (0x30 : UInt8) = some 0x2d ∨ some (0x30 : UInt8) = some 0x2b) := by decide
  have hvalue : ofDigits 16 (numeral 16 n) = n := ofDigits_numeral (by decide) (by decide) n
  unfold strtoull
  rw [hhex]
  simp only [hspace, List.head?_cons]
  rw [if_neg hsign, if_pos htext]
  rw [show (0x30 :: 0x78 :: (numeral 16 n ++ rest)).drop 2 = numeral 16 n ++ rest from rfl, hspan]
  simp only [hvalue]
  rw [if_neg (numeral_ne_nil 16 n), if_neg (by omega), if_neg (by decide)]

theorem strtoull_hex {n : Nat} (hn : n < 2 ^ 64) : strtoull (ascii "0x" ++ numeral 16 n) 16 = (n, [], false) := by
  have h := @strtoull_hex_then n hn [] nofun
  rwa [List.append_nil] at h

/-- Reading a number in base 10, in front of what is no digit. -/
theorem strtoull_decimal_then {n : Nat} (hn : n < 2 ^ 64) {rest : List UInt8}
    (hrest : ∀ c ∈ rest.head?, isDigit 10 c = false) : strtoull (numeral 10 n ++ rest) 10 = (n, rest, false) := by
  obtain ⟨c, digits, hnum⟩ := List.exists_cons_of_ne_nil (numeral_ne_nil 10 n)
  have hc : isDigit 10 c = true := numeral_digits (by decide) (by decide) n c (by rw [hnum]; simp)
  have hdigit : ∀ c, isDigit 10 c = true → isspace c = false ∧ ¬(some c = some 0x2d ∨ some c = some 0x2b) := by
    decide
  have hspan : spanDigits 10 (numeral 10 n ++ rest) = (numeral 10 n, rest) :=
    spanDigits_numeral (by decide) (by decide) n hrest
  have hspace : (numeral 10 n ++ rest).dropWhile isspace = numeral 10 n ++ rest := by
    rw [hnum, List.cons_append, List.dropWhile_cons, (hdigit c hc).1]
    rfl
  have hsign : ¬((numeral 10 n ++ rest).head? = some 0x2d ∨ (numeral 10 n ++ rest).head? = some 0x2b) := by
    rw [hnum]
    exact (hdigit c hc).2
  have hvalue : ofDigits 10 (numeral 10 n) = n := ofDigits_numeral (by decide) (by decide) n
  have hbase : ¬((10 : Nat) = 16 ∧ (numeral 10 n ++ rest).take 2 = ascii "0x" ∧
      ((numeral 10 n ++ rest).drop 2).head?.any (isDigit 16) = true) := fun h => absurd h.1 (by decide)
  unfold strtoull
  simp only [hspace]
  rw [if_neg hsign, if_neg hbase, hspan]
  simp only [hvalue]
  rw [if_neg (numeral_ne_nil 10 n), if_neg (by omega), if_neg fun h => hsign (Or.inl h)]

theorem strtoull_decimal {n : Nat} (hn : n < 2 ^ 64) : strtoull (numeral 10 n) 10 = (n, [], false) := by
  have h := @strtoull_decimal_then n hn [] nofun
  rwa [List.append_nil] at h

theorem stringToNumber_hexText {i : Int} (hi : IsInt64 i) (p : Parser) : stringToNumber p (hexText i) = .ok i := by
  obtain ⟨habs, hlt⟩ := toU64_abs hi
  simp only [IsInt64, INTPTR_MIN, INTPTR_MAX] at hi
  have hcode : ∀ neg : Bool, stringToNumber p ((if neg then [0x2d] else []) ++
      (ascii "0x" ++ numeral 16 (toU64 (if i < 0 then -i else i)))) =
        .ok (if neg then signed64 (-signed64 (toU64 (if i < 0 then -i else i)))
          else signed64 (toU64 (if i < 0 then -i else i))) := by
    intro neg
    have htail : (if neg then [0x2d] else []) ++ (ascii "0x" ++ numeral 16 (toU64 (if i < 0 then -i else i))) =
        (if neg then [0x2d] else []) ++ 0x30 :: 0x78 :: numeral 16 (toU64 (if i < 0 then -i else i)) := rfl
    have hread := strtoull_hex hlt
    cases neg with
    | true =>
        unfold stringToNumber
        simp only [if_true, List.singleton_append, List.head?_cons, List.tail_cons]
        have htake : (ascii "0x" ++ numeral 16 (toU64 (if i < 0 then -i else i))).take 2 = ascii "0x" := rfl
        rw [if_pos htake, hread]
        rfl
    | false =>
        unfold stringToNumber
        have hhead : ¬(ascii "0x" ++ numeral 16 (toU64 (if i < 0 then -i else i))).head? = some 0x2d := by
          show ¬some (0x30 : UInt8) = some 0x2d
          decide
        simp only [Bool.false_eq_true, if_false, List.nil_append, hhead]
        have htake : (ascii "0x" ++ numeral 16 (toU64 (if i < 0 then -i else i))).take 2 = ascii "0x" := rfl
        rw [if_pos htake, hread]
        rfl
  have hfinal := hcode (decide (i < 0))
  simp only [decide_eq_true_eq] at hfinal
  rw [hexText, hfinal, habs]
  unfold signed64
  congr 1
  split <;> omega

theorem sendInteger_wide {i : Int} (h : ¬(i ≥ -2 ^ 31 ∧ i ≤ 2 ^ 31 - 1)) :
    sendInteger i = sendString (hexText i) := by
  unfold sendInteger sendString
  rw [if_neg h, flatMap_escape fun c hc => (hexText_plain i c hc).1]
  unfold hexText
  simp only [List.cons_append, List.append_assoc]

theorem hexText_length {i : Int} (hi : IsInt64 i) : (hexText i).length < STRING_MAX := by
  have hnum : (numeral 16 _).length ≤ 16 := numeral_length (by decide) (by decide) (toU64_abs hi).2
  unfold hexText
  simp only [List.length_append, STRING_MAX]
  have hascii : (ascii "0x").length = 2 := rfl
  have hminus : (if i < 0 then [(0x2d : UInt8)] else []).length ≤ 1 := by
    split
    · exact Nat.le_refl 1
    · exact Nat.zero_le 1
  omega

/-- An integer is a number or a string of its hexadecimal digits. -/
theorem parseInteger_sendInteger {i : Int} (hi : IsInt64 i) {rest : List UInt8} (hrest : EndsNumber rest)
    (lineno : Nat) : parseInteger (.at (sendInteger i ++ rest) lineno) = .ok (i, .at rest lineno) := by
  by_cases h : i ≥ -2 ^ 31 ∧ i ≤ 2 ^ 31 - 1
  · have htoken : expectToken2 (.at (sendInteger i ++ rest) lineno) TOKEN_NUMBER TOKEN_STRING =
        .ok (.number i, .at rest lineno) := by
      rw [sendInteger, if_pos h]
      exact expectTokens_ok (getToken_signedNumeral h hrest lineno) (List.mem_cons_self)
    unfold parseInteger
    rw [htoken]
    rfl
  · have hplain := hexText_plain i
    have htoken : expectToken2 (.at (sendInteger i ++ rest) lineno) TOKEN_NUMBER TOKEN_STRING =
        .ok (.string (hexText i), .at rest lineno) := by
      rw [sendInteger_wide h]
      exact expectTokens_ok (getToken_sendString (fun h0 => (hplain 0 h0).2.2 rfl)
        (fun hff => (hplain _ hff).2.1 rfl) (hexText_length hi) rest lineno) (List.mem_cons_of_mem _ (List.mem_singleton_self _))
    unfold parseInteger
    rw [htoken]
    show (stringToNumber _ (hexText i) >>= _) = _
    rw [stringToNumber_hexText hi]
    rfl

/-! ### Bytes -/

/-- The bytes behind the first one. -/
def byteTail (bytes : List UInt8) : List UInt8 := bytes.flatMap fun b => 0x2c :: numeral 10 b.toNat

theorem sendByteList_cons (b : UInt8) (bytes : List UInt8) :
    sendByteList (b :: bytes) = numeral 10 b.toNat ++ byteTail bytes := by
  induction bytes generalizing b with
  | nil => simp [sendByteList, byteTail]
  | cons c bytes ih =>
      rw [sendByteList.eq_def]
      simp only
      rw [ih c]
      rfl

theorem byteTail_length (bytes : List UInt8) : bytes.length ≤ (byteTail bytes).length := by
  induction bytes with
  | nil => exact Nat.le_refl 0
  | cons b bytes ih =>
      simp only [byteTail, List.flatMap_cons, List.length_append, List.length_cons] at ih ⊢
      omega

theorem getToken_byte (b : UInt8) {rest : List UInt8} (hrest : EndsNumber rest) (lineno : Nat) :
    getToken (.at (numeral 10 b.toNat ++ rest) lineno) = .ok (.number b.toNat, .at rest lineno) := by
  have hb := b.toNat_lt
  have h := getToken_signedNumeral (i := b.toNat) (by omega) hrest lineno
  rwa [signedNumeral, if_neg (by omega), Int.toNat_natCast] at h

theorem endsNumber_symbol {c : UInt8} (hc : c ∈ symbols) (rest : List UInt8) : EndsNumber (c :: rest) := by
  rintro d hd
  obtain rfl : c = d := by simpa using hd
  exact (symbols_spec c hc).2

/-- The loop, with the first of the bytes read. -/
theorem parseBytesFrom_tail (b : UInt8) (bytes rest : List UInt8) (lineno : Nat) {fuel : Nat}
    (hfuel : bytes.length + 2 ≤ fuel) (acc : List UInt8) :
    parseBytesFrom fuel (.number b.toNat) (.at (byteTail bytes ++ 0x5d :: rest) lineno) acc =
      .ok (acc ++ b :: bytes, .at rest lineno) := by
  induction bytes generalizing b fuel acc with
  | nil =>
      obtain ⟨fuel, rfl⟩ : ∃ n, fuel = n + 2 := ⟨fuel - 2, by simp only [List.length_nil] at hfuel; omega⟩
      have hb := b.toNat_lt
      have htoken : expectToken2 (.at (byteTail [] ++ 0x5d :: rest) lineno) 0x2c 0x5d =
          .ok (.symbol 0x5d, .at rest lineno) :=
        expectTokens_ok (getToken_symbol (by decide) rest lineno) (by decide)
      rw [parseBytesFrom, if_neg (by simp)]
      simp only
      rw [if_neg (by omega), htoken, Int.toNat_natCast, UInt8.ofNat_toNat]
      show parseBytesFrom (fuel + 1) (.symbol 0x5d) _ _ = _
      rw [parseBytesFrom.eq_def]
      simp only [if_true]
  | cons c bytes ih =>
      obtain ⟨fuel, rfl⟩ : ∃ n, fuel = n + 1 := ⟨fuel - 1, by simp only [List.length_cons] at hfuel; omega⟩
      have hb := b.toNat_lt
      have htext : byteTail (c :: bytes) ++ 0x5d :: rest =
          0x2c :: (numeral 10 c.toNat ++ (byteTail bytes ++ 0x5d :: rest)) := by
        simp [byteTail]
      have htoken : expectToken2 (.at (byteTail (c :: bytes) ++ 0x5d :: rest) lineno) 0x2c 0x5d =
          .ok (.symbol 0x2c, .at (numeral 10 c.toNat ++ (byteTail bytes ++ 0x5d :: rest)) lineno) := by
        rw [htext]
        exact expectTokens_ok (getToken_symbol (by decide) _ lineno) (by decide)
      have hends : EndsNumber (byteTail bytes ++ 0x5d :: rest) := by
        cases bytes with
        | nil => exact endsNumber_symbol (by decide) rest
        | cons d bytes => exact endsNumber_symbol (c := 0x2c) (by decide) _
      rw [parseBytesFrom, if_neg (by simp)]
      simp only
      rw [if_neg (by omega), htoken, Int.toNat_natCast, UInt8.ofNat_toNat]
      show (getToken (.at (numeral 10 c.toNat ++ (byteTail bytes ++ 0x5d :: rest)) lineno) >>= _) = _
      rw [getToken_byte c hends lineno]
      show parseBytesFrom fuel (.number c.toNat) (.at (byteTail bytes ++ 0x5d :: rest) lineno) (acc ++ [b]) = _
      rw [ih c (by simp only [List.length_cons] at hfuel; omega), List.append_assoc]
      rfl

/-- Bytes are read back. -/
theorem parseBytes_sendBytes (bytes rest : List UInt8) (lineno : Nat) :
    parseBytes (.at (sendBytes bytes ++ rest) lineno) = .ok (bytes, .at rest lineno) := by
  have htext : sendBytes bytes ++ rest = 0x5b :: (sendByteList bytes ++ 0x5d :: rest) := by
    simp [sendBytes]
  unfold parseBytes
  rw [htext, expectToken_symbol (by decide)]
  show (getToken (.at (sendByteList bytes ++ 0x5d :: rest) lineno) >>= _) = _
  cases bytes with
  | nil =>
      show (getToken (.at (0x5d :: rest) lineno) >>= _) = _
      rw [getToken_symbol (by decide)]
      rfl
  | cons b bytes =>
      have hends : EndsNumber (byteTail bytes ++ 0x5d :: rest) := by
        cases bytes with
        | nil => exact endsNumber_symbol (by decide) rest
        | cons d bytes => exact endsNumber_symbol (c := 0x2c) (by decide) _
      have hlen := byteTail_length bytes
      rw [sendByteList_cons, List.append_assoc, getToken_byte b hends lineno]
      refine parseBytesFrom_tail b bytes rest lineno ?_ []
      simp only [Parser.at, List.length_cons, List.length_append]
      omega

/-! ### Data entries -/

/-- The integers that an operand of a size can have, with or without a sign. -/
def FitsOperand (size : Nat) (imm : Int) : Prop :=
  if size = 1 then -2 ^ 7 ≤ imm ∧ imm < 2 ^ 8
  else if size = 2 then -2 ^ 15 ≤ imm ∧ imm < 2 ^ 16
  else if size = 4 then -2 ^ 31 ≤ imm ∧ imm < 2 ^ 32
  else IsInt64 imm

/-- The entry of an immediate operand. -/
def immediateEntry (size : Nat) (imm : Int) : Entry :=
  if size = 1 then .INT8 (.uint64 (imm % 2 ^ 8).toNat)
  else if size = 2 then .INT16 (.uint64 (imm % 2 ^ 16).toNat)
  else if size = 4 then .INT32 (.uint64 (imm % 2 ^ 32).toNat)
  else .INT64 (.uint64 (toU64 imm))

/-- The entry with the type name `name` that is made of the value. -/
theorem makeDataEntry_value {name value rest : List UInt8} {lineno : Nat} {entry : ParsedEntry}
    (hname : name ∈ ["int8", "int16", "int32", "int64"].map ascii)
    (hvalue : parseData (.at (value ++ 0x7d :: rest) lineno) name = .ok (entry, .at (0x7d :: rest) lineno)) :
    makeDataEntry (.at (0x22 :: name ++ [0x22, 0x3a] ++ value ++ 0x7d :: rest) lineno) =
      .ok (entry, .at rest lineno) := by
  have hplain : 0 ∉ name ∧ EOF ∉ name ∧ name.length < STRING_MAX ∧ name.flatMap escape = name := by
    have hall : ∀ name ∈ ["int8", "int16", "int32", "int64"].map ascii,
        0 ∉ name ∧ EOF ∉ name ∧ name.length < STRING_MAX ∧ name.flatMap escape = name := by decide
    exact hall name hname
  obtain ⟨h0, hff, hlen, hesc⟩ := hplain
  have htext : 0x22 :: name ++ [0x22, 0x3a] ++ value ++ 0x7d :: rest =
      sendString name ++ 0x3a :: (value ++ 0x7d :: rest) := by
    simp [sendString, hesc]
  have hmem : name ∈ ["int8", "int16", "int32", "int64", "rel8", "rel32", "string"].map ascii :=
    List.mem_of_mem_take (i := 4) hname
  unfold makeDataEntry
  rw [htext, (parseString_sendString h0 hlen _ lineno).mpr hff]
  show (if name ∈ _ ∨ _ then _ else _) = _
  rw [if_pos (Or.inl hmem), expectToken_symbol (by decide)]
  show (parseData (.at (value ++ 0x7d :: rest) lineno) name >>= _) = _
  rw [hvalue, bind_ok]
  refine ⟨_, rfl, ?_⟩
  simp only
  rw [expectToken_symbol (by decide)]
  rfl

/-- A number of 32 bits as the value of an entry. -/
theorem parseValue_number {x : Int} (hx : -2 ^ 31 ≤ x ∧ x ≤ 2 ^ 31 - 1) {rest : List UInt8}
    (hrest : EndsNumber rest) (lineno : Nat) {convert : Parser → Int → Except ParseError Nat} {n : Nat}
    (hn : convert (.at rest lineno) x = .ok n) :
    parseValue (.at (signedNumeral x ++ rest) lineno) convert = .ok (.uint64 n, .at rest lineno) := by
  have htoken : expectToken2 (.at (signedNumeral x ++ rest) lineno) TOKEN_NUMBER TOKEN_STRING =
      .ok (.number x, .at rest lineno) :=
    expectTokens_ok (getToken_signedNumeral hx hrest lineno) (List.mem_cons_self)
  unfold parseValue
  rw [htoken]
  show (convert (.at rest lineno) x >>= _) = _
  rw [hn]
  rfl

theorem narrow_ok {bits : Nat} {x : Int} (hx : -2 ^ (bits - 1) ≤ x ∧ x ≤ 2 ^ bits - 1) (p : Parser) :
    narrow bits p x = .ok (if x < 0 then x + (2 ^ bits - 1 + 1) else x).toNat := by
  unfold narrow convertInteger
  rw [if_neg (by omega)]
  rfl

/-- A value of 64 bits is sent as a number or as a string that is no label. -/
theorem parseValue_wide {x : Int} (hx : IsInt64 x) {rest : List UInt8} (hrest : EndsNumber rest) (lineno : Nat) :
    parseValue (.at (sendInteger x ++ rest) lineno) wide = .ok (.uint64 (toU64 x), .at rest lineno) := by
  by_cases h : x ≥ -2 ^ 31 ∧ x ≤ 2 ^ 31 - 1
  · rw [sendInteger, if_pos h]
    exact parseValue_number h hrest lineno rfl
  · have hplain := hexText_plain x
    have htoken : expectToken2 (.at (sendInteger x ++ rest) lineno) TOKEN_NUMBER TOKEN_STRING =
        .ok (.string (hexText x), .at rest lineno) := by
      rw [sendInteger_wide h]
      exact expectTokens_ok (getToken_sendString (fun h0 => (hplain 0 h0).2.2 rfl)
        (fun hff => (hplain _ hff).2.1 rfl) (hexText_length hx) rest lineno)
        (List.mem_cons_of_mem _ (List.mem_singleton_self _))
    have hlabel : ¬(hexText x).take 2 = ascii ".L" := by
      unfold hexText
      split
      · intro hl
        exact absurd (List.cons.inj hl).1 (by decide)
      · intro hl
        exact absurd (List.cons.inj hl).1 (by decide)
    unfold parseValue
    rw [htoken]
    show (if (hexText x).take 2 = ascii ".L" then _ else _) = _
    rw [if_neg hlabel, stringToNumber_hexText hx]
    rfl

/-- The data of an immediate operand, from behind the opening brace. -/
theorem makeDataEntry_sendImmediate {size : Nat} {imm : Int} (h : FitsOperand size imm) (rest : List UInt8)
    (lineno : Nat) : ∃ text, sendImmediate size imm ++ rest = 0x7b :: text ∧
      makeDataEntry (.at text lineno) = .ok (immediateEntry size imm, .at rest lineno) := by
  have hends : EndsNumber (0x7d :: rest) := endsNumber_symbol (by decide) rest
  have hint : -2 ^ 31 ≤ signed32 imm ∧ signed32 imm ≤ 2 ^ 31 - 1 := by
    have := signed32_range imm
    omega
  unfold sendImmediate immediateEntry
  unfold FitsOperand at h
  by_cases h1 : size = 1
  · rw [if_pos h1] at h ⊢
    rw [if_pos h1]
    refine ⟨0x22 :: ascii "int8" ++ [0x22, 0x3a] ++ signedNumeral (signed32 imm) ++ 0x7d :: rest, ?_, ?_⟩
    · rw [List.append_assoc]
      rfl
    have hsigned : signed32 imm = imm := signed32_eq (by omega) (by omega)
    refine makeDataEntry_value (by decide) ?_
    rw [parseData, if_pos rfl, parseValue_number hint hends lineno (narrow_ok (by rw [hsigned]; omega) _), hsigned]
    show Except.ok (some (Entry.INT8 (.uint64 _)), _) = _
    congr 5
    split <;> omega
  by_cases h2 : size = 2
  · rw [if_neg h1, if_pos h2] at h ⊢
    rw [if_neg h1, if_pos h2]
    refine ⟨0x22 :: ascii "int16" ++ [0x22, 0x3a] ++ signedNumeral (signed32 imm) ++ 0x7d :: rest, ?_, ?_⟩
    · rw [List.append_assoc]
      rfl
    have hsigned : signed32 imm = imm := signed32_eq (by omega) (by omega)
    refine makeDataEntry_value (by decide) ?_
    rw [parseData, if_neg (by decide), if_pos rfl,
      parseValue_number hint hends lineno (narrow_ok (by rw [hsigned]; omega) _), hsigned]
    show Except.ok (some (Entry.INT16 (.uint64 _)), _) = _
    congr 5
    split <;> omega
  by_cases h4 : size = 4
  · rw [if_neg h1, if_neg h2, if_pos h4] at h ⊢
    rw [if_neg h1, if_neg h2, if_pos h4]
    refine ⟨0x22 :: ascii "int32" ++ [0x22, 0x3a] ++ signedNumeral (signed32 imm) ++ 0x7d :: rest, ?_, ?_⟩
    · rw [List.append_assoc]
      rfl
    refine makeDataEntry_value (by decide) ?_
    rw [parseData, if_neg (by decide), if_neg (by decide), if_pos rfl,
      parseValue_number hint hends lineno (narrow_ok (by omega) _)]
    show Except.ok (some (Entry.INT32 (.uint64 _)), _) = _
    congr 5
    unfold signed32
    split <;> omega
  · rw [if_neg h1, if_neg h2, if_neg h4] at h ⊢
    rw [if_neg h1, if_neg h2, if_neg h4]
    refine ⟨0x22 :: ascii "int64" ++ [0x22, 0x3a] ++ sendInteger imm ++ 0x7d :: rest, ?_, ?_⟩
    · rw [List.append_assoc]
      rfl
    refine makeDataEntry_value (by decide) ?_
    rw [parseData, if_neg (by decide), if_neg (by decide), if_neg (by decide), if_pos rfl,
      parseValue_wide h hends lineno]
    rfl

/-- **Wire format.** Integers, bytes and the data of immediate operands are read back, and the reader stops
behind them; so are strings, exactly if they do not have the byte `FF`. -/
theorem wire_format {s : List UInt8} (hs : 0 ∉ s) (hlen : s.length < STRING_MAX) {i : Int} (hi : IsInt64 i)
    (bytes : List UInt8) {size : Nat} {imm : Int} (himm : FitsOperand size imm) (rest : List UInt8)
    {next : List UInt8} (hnext : EndsNumber next) (lineno : Nat) :
    (parseString (.at (sendString s ++ rest) lineno) = .ok (s, .at rest lineno) ∧
      parseInteger (.at (sendInteger i ++ next) lineno) = .ok (i, .at next lineno) ∧
      parseBytes (.at (sendBytes bytes ++ rest) lineno) = .ok (bytes, .at rest lineno) ∧
      ∃ text, sendImmediate size imm ++ rest = 0x7b :: text ∧
        makeDataEntry (.at text lineno) = .ok (immediateEntry size imm, .at rest lineno)) ↔ 0xff ∉ s := by
  have hstring := parseString_sendString hs hlen rest lineno
  refine ⟨fun h => hstring.mp h.1, fun h => ⟨hstring.mpr h, ?_, ?_, ?_⟩⟩
  · exact parseInteger_sendInteger hi hnext lineno
  · exact parseBytes_sendBytes bytes rest lineno
  · exact makeDataEntry_sendImmediate himm rest lineno

theorem sample_wire_format : (parseString (.at (sendString (ascii "a\"b") ++ [0x2c]) 1) =
      .ok (ascii "a\"b", .at [0x2c] 1) ∧
    parseInteger (.at (sendInteger (2 ^ 40) ++ [0x2c]) 1) = .ok (2 ^ 40, .at [0x2c] 1) ∧
    parseBytes (.at (sendBytes [1, 200] ++ [0x2c]) 1) = .ok ([1, 200], .at [0x2c] 1) ∧
    ∃ text, sendImmediate 1 (-5) ++ [0x2c] = 0x7b :: text ∧
      makeDataEntry (.at text 1) = .ok (immediateEntry 1 (-5), .at [0x2c] 1)) ↔ 0xff ∉ ascii "a\"b" :=
  wire_format (by decide) (by decide) ⟨by decide, by decide⟩ [1, 200] (by unfold FitsOperand; rw [if_pos rfl]; decide) [0x2c]
    (endsNumber_symbol (by decide) []) 1

/-- The string that is the byte `FF`. -/
theorem eof_in_string : ¬∀ s rest : List UInt8, 0 ∉ s → s.length < STRING_MAX →
    parseString (.at (sendString s ++ rest) 1) = .ok (s, .at rest 1) := by
  intro h
  exact absurd (h [0xff] [] (by decide) (by decide)) (by decide)

end E9Patch
