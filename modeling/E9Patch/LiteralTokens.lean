import E9Patch.JsonRoundTrip

/-!
The tokens of match and patch expressions (`e9parser.cpp`) and their literals. The table of the names is a
parameter. In a regular expression `getToken` looks for the escaped slash one character too far, so that some
slashes end the token and some characters are left out.
-/

namespace E9Tool
open E9Patch (isspace isdigit isdigit_eq strtoull strtoull_hex strtoull_decimal IsInt64 toU64)
open Bytes Numerals

set_option maxRecDepth 20000

/-! ### Tokens -/

def TOKEN_ERROR : Int := -1
def TOKEN_EOF : Int := 0
def TOKEN_INTEGER : Int := 2000
def TOKEN_REGISTER : Int := 2001
def TOKEN_STRING : Int := 2002
def TOKEN_NAME : Int := 2003
def TOKEN_REGEX : Int := 2004
def TOKEN_MAXLEN : Nat := 2048

/-- A row of the table of tokens, which is in the order of the names. -/
structure TokenInfo where
  name : List UInt8
  token : Int
  value : Int
  deriving DecidableEq, Repr

inductive TokenKind where
  | integer | string | regex | name
  deriving DecidableEq, Repr

/-- The errors of `getToken`, each with the characters in front of "<--- here". `overrun` is a backslash at the
end of the buffer, behind which the source reads on. -/
inductive TokenError where
  | noDigit (s : List UInt8) (base : Nat) (c : UInt8)
  | tooLong (kind : TokenKind) (s : List UInt8)
  | notInteger (s : List UInt8)
  | unterminated (kind : TokenKind) (s : List UInt8)
  | unknown (c : UInt8)
  | overrun
  deriving DecidableEq, Repr

/-- `text` is the buffer from the position on, up to its zero byte. -/
structure Parser where
  text : List UInt8
  peek : Int
  i : Int
  s : List UInt8
  deriving DecidableEq, Repr

def isalpha (c : UInt8) : Bool := (0x41 ≤ c ∧ c ≤ 0x5a) ∨ (0x61 ≤ c ∧ c ≤ 0x7a)

/-- Get a token info. -/
def getTokenInfo (tokens : List TokenInfo) (name : List UInt8) : Option TokenInfo :=
  tokens.find? fun info => info.name = name

/-- Get token from name. -/
def Parser.getTokenFromName (tokens : List TokenInfo) (p : Parser) (name : List UInt8) : Int × Parser :=
  let reg := name.head? = some 0x25 ∧ name.tail ≠ []
  match getTokenInfo tokens (if reg then name.tail else name) with
  | none => (TOKEN_ERROR, p)
  | some info => if reg ∧ info.token ≠ TOKEN_REGISTER then (TOKEN_ERROR, p) else (info.token, { p with i := info.value })

/-- An operator, with the rest of the buffer. -/
def getOperator (c : UInt8) (t : List UInt8) : Option (List UInt8 × List UInt8) :=
  if c ∈ ascii "[]@,()&.:+\x7b\x7d*|~^" then
    if c ∈ ascii "&|." ∧ t.head? = some c then some ([c, c], t.tail) else some ([c], t)
  else if c ∈ ascii "!<>=" then
    if t.head? = some 0x3d then some ([c, 0x3d], t.tail)
    else if c ∈ ascii "<>" ∧ t.head? = some c then some ([c, c], t.tail)
    else some ([c], t)
  else if c = 0x2d then
    match t with
    | d :: u => if d = 0x2d ∨ d = 0x77 then some ([c, d], u) else some ([c], t)
    | [] => some ([c], t)
  else if c = 0x72 ∧ t.head? = some 0x2d then some ([c, 0x2d], t.tail)
  else none

/-- An integer that starts with the digit `c`. -/
def readInteger (c : UInt8) (t : List UInt8) : Except TokenError (Int × List UInt8 × List UInt8) :=
  let hex := c = 0x30 ∧ t.head? = some 0x78
  let base := if hex then 16 else 10
  let lead := if hex then ascii "0x" else []
  let u := if hex then t.tail else c :: t
  if u.head?.any (isDigit base) then
    let digits := (u.takeWhile (isDigit base)).take (TOKEN_MAXLEN - lead.length)
    let s := lead ++ digits
    if s.length ≥ TOKEN_MAXLEN then .error (.tooLong .integer s)
    else
      let r := strtoull s base
      if r.2.1 ≠ [] then .error (.notInteger s) else .ok (signed64 r.1, s, u.drop digits.length)
  else .error (.noDigit lead base (u.headD 0))

/-- The character of an escape sequence. -/
def unescape (c : UInt8) : UInt8 :=
  if c = 0x6e then 0x0a  -- 'n'
  else if c = 0x74 then 0x09  -- 't'
  else if c = 0x72 then 0x0d  -- 'r'
  else c

/-- The rest of a string, with the characters so far. -/
def readString : List UInt8 → List UInt8 → Except TokenError (List UInt8 × List UInt8)
  | s, [] => .error (.unterminated .string s)
  | s, c :: t =>
    if c = 0x22 then .ok (s, t)
    else if s.length ≥ TOKEN_MAXLEN - 1 then .error (.tooLong .string s)
    else if c = 0x5c then
      match t with
      | [] => .error .overrun
      | d :: u => readString (s ++ [unescape d]) u
    else readString (s ++ [c]) t

/-- The rest of a regular expression. Behind a backslash the source looks at the second character; is that a
slash, the first one is skipped. -/
def readRegex : List UInt8 → List UInt8 → Except TokenError (List UInt8 × List UInt8)
  | s, [] => .error (.unterminated .regex s)
  | s, c :: t =>
    if c = 0x2f then .ok (s, t)
    else if s.length ≥ TOKEN_MAXLEN - 1 then .error (.tooLong .regex s)
    else
      match t with
      | [] => if c = 0x5c then .error .overrun else readRegex (s ++ [c]) []
      | d :: u =>
        if c = 0x5c ∧ u.head? = some 0x2f then readRegex (s ++ [0x2f]) u else readRegex (s ++ [c]) (d :: u)

/-- The rest of a name. -/
def readName (c : UInt8) (t : List UInt8) : Except TokenError (List UInt8 × List UInt8) :=
  let u := (t.takeWhile fun d => isalpha d ∨ isdigit d ∨ d = 0x5f).take (TOKEN_MAXLEN - 1)
  if u.length + 1 ≥ TOKEN_MAXLEN then .error (.tooLong .name (c :: u)) else .ok (c :: u, t.drop u.length)

/-- Get the next token. -/
def Parser.getToken (tokens : List TokenInfo) (p : Parser) : Except TokenError (Int × Parser) :=
  if p.peek ≠ TOKEN_ERROR then .ok (p.peek, { p with peek := TOKEN_ERROR })
  else
    match p.text.dropWhile isspace with
    | [] => .ok (TOKEN_EOF, { p with text := [], s := ascii "<end-of-input>" })
    | c :: t =>
      match getOperator c t with
      | some r => .ok (Parser.getTokenFromName tokens { p with text := r.2, s := r.1 } r.1)
      | none =>
        if isdigit c then
          (readInteger c t).map fun r => (TOKEN_INTEGER, { p with text := r.2.2, i := r.1, s := r.2.1 })
        else if c = 0x22 then
          (readString [] t).map fun r => (TOKEN_STRING, { p with text := r.2, s := r.1 })
        else if c = 0x2f then
          if t.head?.any isspace then .ok (Parser.getTokenFromName tokens { p with text := t, s := [0x2f] } [0x2f])
          else (readRegex [] t).map fun r => (TOKEN_REGEX, { p with text := r.2, s := r.1 })
        else if isalpha c ∨ c = 0x5f ∨ c = 0x25 then
          (readName c t).map fun r =>
            let q := Parser.getTokenFromName tokens { p with text := r.2, s := r.1 } r.1
            if q.1 = TOKEN_ERROR then (TOKEN_NAME, q.2) else q
        else .error (.unknown c)

/-! ### The texts of the literals -/

def escapeQuote (c : UInt8) : List UInt8 := if c = 0x5c ∨ c = 0x22 then [0x5c, c] else [c]

/-- A string between quotation marks, which are escaped in it, as are backslashes. -/
def stringText (w : List UInt8) : List UInt8 := 0x22 :: (w.flatMap escapeQuote ++ [0x22])

def escapeSlash (c : UInt8) : List UInt8 := if c = 0x2f then [0x5c, c] else [c]

/-- A regular expression between slashes, which are escaped in it. -/
def regexText (w : List UInt8) : List UInt8 := 0x2f :: (w.flatMap escapeSlash ++ [0x2f])

/-- Of a backslash in front of `w` at the end of a regular expression, the second character behind it is no slash. -/
def KeepsBackslash (rest : List UInt8) : List UInt8 → Prop
  | [] => rest.head? ≠ some 0x2f
  | d :: w => d ≠ 0x2f ∧ w ≠ []

/-- The regular expressions that are read back: a slash is only at the end, and every backslash is kept. -/
def ReadBack (rest : List UInt8) : List UInt8 → Prop
  | [] => True
  | c :: w => (c = 0x2f → w = []) ∧ (c = 0x5c → KeepsBackslash rest w) ∧ ReadBack rest w

instance : ∀ rest w, Decidable (KeepsBackslash rest w)
  | rest, [] => inferInstanceAs (Decidable (rest.head? ≠ some 0x2f))
  | _, d :: w => inferInstanceAs (Decidable (d ≠ 0x2f ∧ w ≠ []))

instance decidableReadBack (rest : List UInt8) : ∀ w, Decidable (ReadBack rest w)
  | [] => isTrue trivial
  | c :: w =>
    have := decidableReadBack rest w
    inferInstanceAs (Decidable ((c = 0x2f → w = []) ∧ (c = 0x5c → KeepsBackslash rest w) ∧ ReadBack rest w))

/-! ### Strings and regular expressions -/

theorem readString_text {w s rest : List UInt8} (hlen : s.length + w.length < TOKEN_MAXLEN) :
    readString s (w.flatMap escapeQuote ++ 0x22 :: rest) = .ok (s ++ w, rest) := by
  induction w generalizing s with
  | nil =>
      rw [List.flatMap_nil, List.nil_append, readString.eq_def, List.append_nil]
      exact if_pos rfl
  | cons c w ih =>
      rw [List.length_cons] at hlen
      have hroom : ¬s.length ≥ TOKEN_MAXLEN - 1 := by omega
      have hih := ih (s := s ++ [c]) (by rw [List.length_append, List.length_singleton]; omega)
      rw [List.append_assoc] at hih
      rw [List.flatMap_cons, escapeQuote]
      split_ifs with hc
      · have hself : unescape c = c := by
          rcases hc with rfl | rfl <;> rfl
        show readString s (0x5c :: c :: (w.flatMap escapeQuote ++ 0x22 :: rest)) = _
        rw [readString.eq_def]
        dsimp only
        rw [if_neg (by decide), if_neg hroom, if_pos rfl, hself, hih]
        rfl
      · show readString s (c :: (w.flatMap escapeQuote ++ 0x22 :: rest)) = _
        rw [readString.eq_def]
        dsimp only
        rw [if_neg fun h => hc (Or.inr h), if_neg hroom, if_neg fun h => hc (Or.inl h), hih]
        rfl

theorem readRegex_slash (s t : List UInt8) : readRegex s (0x2f :: t) = .ok (s, t) := by
  rw [readRegex.eq_def]
  dsimp only
  rw [if_pos rfl]

/-- Behind a slash that is taken for an escaped one stands the end of the token. -/
theorem readRegex_skip {s : List UInt8} (hs : s.length < TOKEN_MAXLEN - 1) (d : UInt8) (t : List UInt8) :
    readRegex s (0x5c :: d :: 0x2f :: t) = .ok (s ++ [0x2f], t) := by
  rw [readRegex.eq_def]
  dsimp only
  rw [if_neg (by decide), if_neg (by omega), if_pos ⟨rfl, rfl⟩, readRegex_slash]

theorem readRegex_keep {s : List UInt8} (hs : s.length < TOKEN_MAXLEN - 1) {c : UInt8} (hc : c ≠ 0x2f) {t : List UInt8}
    (ht : t ≠ []) (hkeep : ¬(c = 0x5c ∧ t.tail.head? = some 0x2f)) : readRegex s (c :: t) = readRegex (s ++ [c]) t := by
  obtain ⟨d, u, rfl⟩ := List.exists_cons_of_ne_nil ht
  rw [readRegex.eq_def]
  dsimp only
  rw [if_neg hc, if_neg (by omega)]
  exact if_neg hkeep

theorem second_slash_iff (w rest : List UInt8) :
    (w.flatMap escapeSlash ++ 0x2f :: rest).tail.head? = some 0x2f ↔ ¬KeepsBackslash rest w := by
  cases w with
  | nil => exact not_not.symm
  | cons d w =>
      rw [List.flatMap_cons, KeepsBackslash, escapeSlash]
      split_ifs with hd
      · exact iff_of_true (hd ▸ rfl) fun h => h.1 hd
      · cases w with
        | nil => exact iff_of_true rfl fun h => h.2 rfl
        | cons e w =>
            refine iff_of_false ?_ (not_not.mpr ⟨hd, List.cons_ne_nil e w⟩)
            rw [List.flatMap_cons, escapeSlash]
            split_ifs with he
            · exact fun h => absurd h (by simp)
            · exact fun h => he (Option.some.inj h)

/-- A regular expression is read back exactly if its slashes and backslashes stand where the source looks. -/
theorem readRegex_iff {w s rest : List UInt8} (hlen : s.length + w.length < TOKEN_MAXLEN) :
    readRegex s (w.flatMap escapeSlash ++ 0x2f :: rest) = .ok (s ++ w, rest) ↔ ReadBack rest w := by
  induction w generalizing s with
  | nil =>
      rw [List.flatMap_nil, List.nil_append, readRegex_slash, List.append_nil]
      exact iff_of_true rfl trivial
  | cons c w ih =>
      rw [List.length_cons] at hlen
      have hs : s.length < TOKEN_MAXLEN - 1 := by omega
      have hih := ih (s := s ++ [c]) (by rw [List.length_append, List.length_singleton]; omega)
      rw [List.append_assoc] at hih
      have hne : w.flatMap escapeSlash ++ 0x2f :: rest ≠ [] := List.append_ne_nil_of_right_ne_nil _ (List.cons_ne_nil _ _)
      -- a token that stops at a character other than the next one is none of the text
      have hother : ∀ {d : UInt8} {t : List UInt8}, d ≠ c →
          ¬(Except.ok (s ++ [d], t) : Except TokenError _) = .ok (s ++ c :: w, rest) := by
        intro d t hd h
        have happend := congrArg Prod.fst (Except.ok.inj h)
        exact hd (List.cons.inj (List.append_cancel_left happend)).1
      rw [List.flatMap_cons, ReadBack]
      by_cases hslash : c = 0x2f
      · subst hslash
        show readRegex s (0x5c :: 0x2f :: (w.flatMap escapeSlash ++ 0x2f :: rest)) = _ ↔ _
        cases w with
        | nil =>
            rw [List.flatMap_nil, List.nil_append, readRegex_skip hs]
            exact iff_of_true rfl ⟨fun _ => rfl, nofun, trivial⟩
        | cons d w =>
            have hfirst : ¬((d :: w).flatMap escapeSlash ++ 0x2f :: rest).head? = some 0x2f := by
              rw [List.flatMap_cons, escapeSlash]
              split_ifs with hd
              · exact fun h => absurd h (by simp)
              · exact fun h => hd (Option.some.inj h)
            rw [readRegex_keep hs (by decide) (List.cons_ne_nil _ _) (fun h => hfirst h.2), readRegex_slash]
            exact iff_of_false (hother (by decide)) fun h => absurd (h.1 rfl) (List.cons_ne_nil d w)
      · rw [escapeSlash, if_neg hslash]
        show readRegex s (c :: (w.flatMap escapeSlash ++ 0x2f :: rest)) = _ ↔ _
        by_cases hkeep : c = 0x5c ∧ ¬KeepsBackslash rest w
        · obtain ⟨rfl, hnot⟩ := hkeep
          obtain ⟨d, u, hcons⟩ := List.exists_cons_of_ne_nil hne
          have hsecond := (second_slash_iff w rest).mpr hnot
          rw [hcons] at hsecond ⊢
          obtain ⟨v, rfl⟩ : ∃ v, u = 0x2f :: v := by
            cases u with
            | nil => cases hsecond
            | cons e v => exact ⟨v, by rw [Option.some.inj hsecond]⟩
          rw [readRegex_skip hs]
          exact iff_of_false (hother (by decide)) fun h => hnot (h.2.1 rfl)
        · have hkeep' : ¬(c = 0x5c ∧ (w.flatMap escapeSlash ++ 0x2f :: rest).tail.head? = some 0x2f) := by
            rw [second_slash_iff]
            exact hkeep
          rw [readRegex_keep hs hslash hne hkeep']
          refine hih.trans ⟨fun h => ⟨fun h' => absurd h' hslash, fun h' => ?_, h⟩, fun h => h.2.2⟩
          exact not_not.mp fun hnot => hkeep ⟨h', hnot⟩

/-! ### Integers -/

/-- The digits of a literal end where the text has no more. -/
def EndsDigits (base : Nat) (rest : List UInt8) : Prop := ∀ c ∈ rest.head?, isDigit base c = false ∧ c ≠ 0x78

section
variable {base : Nat} {digits rest : List UInt8} (hdigits : ∀ c ∈ digits, isDigit base c = true)
  (hrest : EndsDigits base rest)
include hdigits hrest

theorem takeWhile_digits : (digits ++ rest).takeWhile (isDigit base) = digits := by
  rw [List.takeWhile_append_of_pos hdigits]
  cases rest with
  | nil => rw [List.takeWhile_nil, List.append_nil]
  | cons c rest => rw [List.takeWhile_cons, (hrest c rfl).1, if_neg Bool.false_ne_true, List.append_nil]

/-- The digits that fit behind `lead`. -/
theorem take_digits (lead : List UInt8) (hlen : (lead ++ digits).length < TOKEN_MAXLEN) :
    ((digits ++ rest).takeWhile (isDigit base)).take (TOKEN_MAXLEN - lead.length) = digits := by
  rw [List.length_append] at hlen
  rw [takeWhile_digits hdigits hrest]
  exact List.take_of_length_le (by omega)

end

/-- Without `0x` the base is 10. -/
theorem readInteger_base {c : UInt8} (hc : isDigit 10 c = true) {t digits : List UInt8} (ht : t.head? ≠ some 0x78)
    (hdigits : ((c :: t).takeWhile (isDigit 10)).take TOKEN_MAXLEN = digits) :
    readInteger c t =
      if digits.length ≥ TOKEN_MAXLEN then .error (.tooLong .integer digits)
      else if (strtoull digits 10).2.1 ≠ [] then .error (.notInteger digits)
      else .ok (signed64 (strtoull digits 10).1, digits, (c :: t).drop digits.length) := by
  unfold readInteger
  simp only [if_neg fun h : c = 0x30 ∧ t.head? = some 0x78 => ht h.2]
  rw [if_pos (show (c :: t).head?.any (isDigit 10) = true from hc)]
  simp only [List.length_nil, Nat.sub_zero, List.nil_append, hdigits]

section
variable {digits rest : List UInt8} (hdigits : ∀ c ∈ digits, isDigit 10 c = true) (hrest : EndsDigits 10 rest)
  {c : UInt8} {t : List UInt8} (htext : digits ++ rest = c :: t)
include hdigits hrest htext

/-- No literal in base 10 has `0x` in front. -/
theorem decimal_head (hne : digits ≠ []) : isDigit 10 c = true ∧ t.head? ≠ some 0x78 := by
  obtain ⟨d, digits, rfl⟩ := List.exists_cons_of_ne_nil hne
  obtain ⟨rfl, rfl⟩ := List.cons.inj htext
  refine ⟨hdigits d List.mem_cons_self, fun h => ?_⟩
  cases digits with
  | nil => exact (hrest 0x78 h).2 rfl
  | cons e digits =>
      obtain rfl := Option.some.inj h
      exact absurd (hdigits 0x78 (by simp)) (by decide)

theorem readInteger_decimal (hne : digits ≠ []) (hlen : digits.length < TOKEN_MAXLEN) {n : Nat}
    (hread : strtoull digits 10 = (n, [], false)) : readInteger c t = .ok (signed64 n, digits, rest) := by
  obtain ⟨hc, ht⟩ := decimal_head hdigits hrest htext hne
  have htake := take_digits hdigits hrest [] hlen
  rw [htext] at htake
  rw [readInteger_base hc ht htake, hread, if_neg (by omega), if_neg fun h => h rfl, ← htext, List.drop_left]

/-- Digits that do not fit are refused. -/
theorem readInteger_long (hlen : TOKEN_MAXLEN ≤ digits.length) :
    readInteger c t = .error (.tooLong .integer (digits.take TOKEN_MAXLEN)) := by
  have hne : digits ≠ [] := by
    rintro rfl
    cases hlen
  obtain ⟨hc, ht⟩ := decimal_head hdigits hrest htext hne
  have htake : ((c :: t).takeWhile (isDigit 10)).take TOKEN_MAXLEN = digits.take TOKEN_MAXLEN := by
    rw [← htext, takeWhile_digits hdigits hrest]
  rw [readInteger_base hc ht htake, if_pos (by rw [List.length_take]; omega)]

end

/-- Behind `0x` the base is 16. -/
theorem readInteger_0x {t digits : List UInt8} (ht : t.head?.any (isDigit 16) = true)
    (hdigits : (t.takeWhile (isDigit 16)).take (TOKEN_MAXLEN - (ascii "0x").length) = digits) :
    readInteger 0x30 (0x78 :: t) =
      if (ascii "0x" ++ digits).length ≥ TOKEN_MAXLEN then .error (.tooLong .integer (ascii "0x" ++ digits))
      else if (strtoull (ascii "0x" ++ digits) 16).2.1 ≠ [] then .error (.notInteger (ascii "0x" ++ digits))
      else .ok (signed64 (strtoull (ascii "0x" ++ digits) 16).1, ascii "0x" ++ digits, t.drop digits.length) := by
  unfold readInteger
  simp only [List.head?_cons, and_self, if_true, List.tail_cons]
  rw [if_pos ht]
  simp only [hdigits]

section
variable {digits rest : List UInt8} (hdigits : ∀ c ∈ digits, isDigit 16 c = true) (hne : digits ≠ [])
  (hrest : EndsDigits 16 rest)
include hdigits

theorem hex_head (hne : digits ≠ []) (rest : List UInt8) : (digits ++ rest).head?.any (isDigit 16) = true := by
  obtain ⟨c, digits, rfl⟩ := List.exists_cons_of_ne_nil hne
  exact hdigits c List.mem_cons_self

include hne hrest

theorem readInteger_hex (hlen : (ascii "0x" ++ digits).length < TOKEN_MAXLEN) {n : Nat}
    (hread : strtoull (ascii "0x" ++ digits) 16 = (n, [], false)) :
    readInteger 0x30 (0x78 :: (digits ++ rest)) = .ok (signed64 n, ascii "0x" ++ digits, rest) := by
  rw [readInteger_0x (hex_head hdigits hne rest) (take_digits hdigits hrest (ascii "0x") hlen), hread,
    if_neg (by omega), if_neg fun h => h rfl, List.drop_left]

theorem readInteger_hex_long (hlen : TOKEN_MAXLEN ≤ (ascii "0x" ++ digits).length) :
    readInteger 0x30 (0x78 :: (digits ++ rest)) =
      .error (.tooLong .integer (ascii "0x" ++ digits.take (TOKEN_MAXLEN - (ascii "0x").length))) := by
  have hlen' : (ascii "0x").length ≤ TOKEN_MAXLEN := by decide
  rw [List.length_append] at hlen
  rw [readInteger_0x (hex_head hdigits hne rest) (by rw [takeWhile_digits hdigits hrest]), if_pos]
  rw [List.length_append, List.length_take]
  omega

end

/-! ### The tokens of the literals -/

/-- A parser in front of a text, with no token read ahead. -/
def Parser.at (text : List UInt8) (i : Int) (s : List UInt8) : Parser := ⟨text, TOKEN_ERROR, i, s⟩

theorem getTokenFromName_s (tokens : List TokenInfo) (p : Parser) (name : List UInt8) :
    (p.getTokenFromName tokens name).2.s = p.s ∧ (p.getTokenFromName tokens name).2.text = p.text := by
  unfold Parser.getTokenFromName
  dsimp only
  split
  · exact ⟨rfl, rfl⟩
  · split_ifs <;> exact ⟨rfl, rfl⟩

/-- A literal starts with no operator and no space. -/
theorem literal_start : ∀ c : UInt8, isdigit c = true ∨ c = 0x22 ∨ c = 0x2f →
    isspace c = false ∧ c ∉ ascii "[]@,()&.:+{}*|~^" ∧ c ∉ ascii "!<>=" ∧ c ≠ 0x2d ∧ c ≠ 0x72 := by
  decide

theorem getOperator_literal {c : UInt8} (hc : isdigit c = true ∨ c = 0x22 ∨ c = 0x2f) (t : List UInt8) :
    getOperator c t = none := by
  obtain ⟨-, h1, h2, h3, h4⟩ := literal_start c hc
  unfold getOperator
  rw [if_neg h1, if_neg h2, if_neg h3, if_neg fun h => h4 h.1]

section
variable (tokens : List TokenInfo) (rest : List UInt8) (i : Int) (s : List UInt8)

/-- The token at a literal is read without a name. -/
theorem getToken_literal {c : UInt8} (hc : isdigit c = true ∨ c = 0x22 ∨ c = 0x2f) (t : List UInt8) :
    (Parser.at (c :: t) i s).getToken tokens =
      if isdigit c then (readInteger c t).map fun r => (TOKEN_INTEGER, .at r.2.2 r.1 r.2.1)
      else if c = 0x22 then (readString [] t).map fun r => (TOKEN_STRING, .at r.2 i r.1)
      else if t.head?.any isspace then .ok ((Parser.at t i [0x2f]).getTokenFromName tokens [0x2f])
      else (readRegex [] t).map fun r => (TOKEN_REGEX, .at r.2 i r.1) := by
  have hspace : (c :: t).dropWhile isspace = c :: t := by
    rw [List.dropWhile_cons, (literal_start c hc).1, if_neg Bool.false_ne_true]
  unfold Parser.getToken Parser.at
  simp only [hspace, getOperator_literal hc]
  rw [if_neg (not_not.mpr rfl)]
  by_cases h1 : isdigit c
  · rw [if_pos h1, if_pos h1]
  · by_cases h2 : c = 0x22
    · rw [if_neg h1, if_neg h1, if_pos h2, if_pos h2]
    · rw [if_neg h1, if_neg h1, if_neg h2, if_neg h2, if_pos ((hc.resolve_left h1).resolve_left h2)]

theorem getToken_string {w : List UInt8} (hlen : w.length < TOKEN_MAXLEN) :
    (Parser.at (stringText w ++ rest) i s).getToken tokens = .ok (TOKEN_STRING, .at rest i w) := by
  have hread : readString [] (w.flatMap escapeQuote ++ 0x22 :: rest) = .ok (w, rest) :=
    readString_text (by simpa using hlen)
  rw [stringText, List.cons_append, List.append_assoc, List.singleton_append,
    getToken_literal tokens i s (Or.inr (Or.inl rfl)), if_neg (by decide), if_pos rfl, hread]
  rfl

/-- The text of a regular expression starts with a space if the expression does. -/
theorem regexText_space (w : List UInt8) :
    (w.flatMap escapeSlash ++ 0x2f :: rest).head?.any isspace = w.head?.any isspace := by
  cases w with
  | nil => exact rfl
  | cons c w =>
      rw [List.flatMap_cons, escapeSlash]
      split_ifs with hc
      · rw [hc]
        rfl
      · rfl

/-- Which regular expressions are read back. One that starts with a space is an operator and what follows. -/
theorem getToken_regex_iff {w : List UInt8} (hlen : w.length < TOKEN_MAXLEN) :
    (Parser.at (regexText w ++ rest) i s).getToken tokens = .ok (TOKEN_REGEX, .at rest i w) ↔
      w.head?.any isspace = false ∧ ReadBack rest w := by
  rw [regexText, List.cons_append, List.append_assoc, List.singleton_append,
    getToken_literal tokens i s (Or.inr (Or.inr rfl)), if_neg (by decide), if_neg (by decide), regexText_space]
  cases hspace : w.head?.any isspace with
  | true =>
      rw [if_pos rfl]
      refine iff_of_false (fun h => ?_) fun h => absurd h.1 (by decide)
      have hs := (getTokenFromName_s tokens (.at (w.flatMap escapeSlash ++ 0x2f :: rest) i [0x2f]) [0x2f]).1
      rw [Except.ok.inj h] at hs
      rw [show w = [0x2f] from hs] at hspace
      exact absurd hspace (by decide)
  | false =>
      have hread : readRegex [] (w.flatMap escapeSlash ++ 0x2f :: rest) = .ok (w, rest) ↔ ReadBack rest w :=
        readRegex_iff (by simpa using hlen)
      rw [if_neg Bool.false_ne_true, ← hread]
      constructor
      · intro h
        obtain ⟨r, hr, heq⟩ := Fallible.map_ok.mp h
        obtain ⟨hrest, -, -, hw⟩ := Parser.mk.inj (Prod.mk.inj heq).2
        exact ⟨rfl, by rw [hr, ← hrest, ← hw]⟩
      · rintro ⟨-, h⟩
        rw [h]
        rfl

theorem getToken_decimal {n : Nat} (hn : n < 2 ^ 64) (hrest : EndsDigits 10 rest) :
    (Parser.at (numeral 10 n ++ rest) i s).getToken tokens =
      .ok (TOKEN_INTEGER, .at rest (signed64 n) (numeral 10 n)) := by
  have hdigits : ∀ c ∈ numeral 10 n, isDigit 10 c = true := numeral_digits (by decide) (by decide) n
  have hlen : (numeral 10 n).length ≤ 20 := numeral_length (by decide) (by decide) (Nat.lt_trans hn (by decide))
  obtain ⟨c, t, htext⟩ := List.exists_cons_of_ne_nil (List.append_ne_nil_of_left_ne_nil (numeral_ne_nil 10 n) rest)
  have hc : isdigit c = true := (isdigit_eq c).trans (decimal_head hdigits hrest htext (numeral_ne_nil 10 n)).1
  rw [htext, getToken_literal tokens i s (Or.inl hc), if_pos hc,
    readInteger_decimal hdigits hrest htext (numeral_ne_nil 10 n) (Nat.lt_of_le_of_lt hlen (by decide)) (strtoull_decimal hn)]
  rfl

theorem getToken_hex {n : Nat} (hn : n < 2 ^ 64) (hrest : EndsDigits 16 rest) :
    (Parser.at (ascii "0x" ++ numeral 16 n ++ rest) i s).getToken tokens =
      .ok (TOKEN_INTEGER, .at rest (signed64 n) (ascii "0x" ++ numeral 16 n)) := by
  have hdigits : ∀ c ∈ numeral 16 n, isDigit 16 c = true := numeral_digits (by decide) (by decide) n
  have hlen : (numeral 16 n).length ≤ 16 := numeral_length (by decide) (by decide) (Nat.lt_of_lt_of_le hn (by decide))
  have hlen' : (ascii "0x" ++ numeral 16 n).length < TOKEN_MAXLEN := by
    rw [List.length_append, show (ascii "0x").length = 2 from rfl, TOKEN_MAXLEN]
    omega
  show (Parser.at (0x30 :: 0x78 :: (numeral 16 n ++ rest)) i s).getToken tokens = _
  rw [getToken_literal tokens i s (Or.inl (by decide)), if_pos (by decide),
    readInteger_hex hdigits (numeral_ne_nil 16 n) hrest hlen' (strtoull_hex hn)]
  rfl

theorem getToken_long {digits : List UInt8} (hdigits : ∀ c ∈ digits, isDigit 10 c = true) (hrest : EndsDigits 10 rest)
    (hlen : TOKEN_MAXLEN ≤ digits.length) :
    (Parser.at (digits ++ rest) i s).getToken tokens = .error (.tooLong .integer (digits.take TOKEN_MAXLEN)) := by
  have hne : digits ≠ [] := by
    rintro rfl
    cases hlen
  obtain ⟨c, t, htext⟩ := List.exists_cons_of_ne_nil (List.append_ne_nil_of_left_ne_nil hne rest)
  have hc : isdigit c = true := (isdigit_eq c).trans (decimal_head hdigits hrest htext hne).1
  rw [htext, getToken_literal tokens i s (Or.inl hc), if_pos hc, readInteger_long hdigits hrest htext hlen]
  rfl

theorem getToken_hex_long {digits : List UInt8} (hdigits : ∀ c ∈ digits, isDigit 16 c = true)
    (hrest : EndsDigits 16 rest) (hlen : TOKEN_MAXLEN ≤ (ascii "0x" ++ digits).length) :
    (Parser.at (ascii "0x" ++ digits ++ rest) i s).getToken tokens =
      .error (.tooLong .integer (ascii "0x" ++ digits.take (TOKEN_MAXLEN - (ascii "0x").length))) := by
  have hne : digits ≠ [] := by
    rintro rfl
    exact absurd hlen (by decide)
  show (Parser.at (0x30 :: 0x78 :: (digits ++ rest)) i s).getToken tokens = _
  rw [getToken_literal tokens i s (Or.inl (by decide)), if_pos (by decide),
    readInteger_hex_long hdigits hne hrest hlen]
  rfl

/-- A minus in front of a literal is a token of its own. -/
theorem getToken_minus (n : Nat) : (Parser.at (0x2d :: (numeral 10 n ++ rest)) i s).getToken tokens =
    .ok ((Parser.at (numeral 10 n ++ rest) i [0x2d]).getTokenFromName tokens [0x2d]) := by
  obtain ⟨c, t, hnum⟩ := List.exists_cons_of_ne_nil (numeral_ne_nil 10 n)
  have hc : isDigit 10 c = true := numeral_digits (by decide) (by decide) n c (hnum ▸ List.mem_cons_self)
  have hother : ∀ c, isDigit 10 c = true → ¬(c = 0x2d ∨ c = 0x77) := by decide
  have hop : getOperator 0x2d (c :: (t ++ rest)) = some ([0x2d], c :: (t ++ rest)) := by
    unfold getOperator
    rw [if_neg (by decide), if_neg (by decide), if_pos rfl]
    exact if_neg (hother c hc)
  rw [hnum, List.cons_append]
  unfold Parser.getToken Parser.at
  have hspace : (0x2d :: c :: (t ++ rest)).dropWhile isspace = 0x2d :: c :: (t ++ rest) := by
    rw [List.dropWhile_cons, if_neg (by decide)]
  simp only [hspace, hop]
  exact if_neg (not_not.mpr rfl)

end

/-- The 64 bits of an integer, as an integer. -/
theorem signed64_toU64 {x : Int} (hx : IsInt64 x) : toU64 x < 2 ^ 64 ∧ signed64 (toU64 x) = x := by
  simp only [IsInt64, E9Patch.INTPTR_MIN, E9Patch.INTPTR_MAX] at hx
  unfold toU64 signed64
  omega

/-- **Literal tokens.** Strings are read back; so are the regular expressions that start with no space and have
their slashes and backslashes where the source looks. The literal of the 64 bits of an integer gives the integer;
a minus in front of it is a token of its own, and a literal that does not fit is refused. -/
theorem literal_tokens (tokens : List TokenInfo) (rest : List UInt8) (i : Int) (s : List UInt8) :
    (∀ w : List UInt8, 0 ∉ w → w.length < TOKEN_MAXLEN →
      (Parser.at (stringText w ++ rest) i s).getToken tokens = .ok (TOKEN_STRING, .at rest i w)) ∧
    (∀ w : List UInt8, 0 ∉ w → w.length < TOKEN_MAXLEN → w.head?.any isspace = false → ReadBack rest w →
      (Parser.at (regexText w ++ rest) i s).getToken tokens = .ok (TOKEN_REGEX, .at rest i w)) ∧
    (∀ x : Int, IsInt64 x → EndsDigits 10 rest →
      (Parser.at (numeral 10 (toU64 x) ++ rest) i s).getToken tokens =
        .ok (TOKEN_INTEGER, .at rest x (numeral 10 (toU64 x)))) ∧
    (∀ x : Int, IsInt64 x → EndsDigits 16 rest →
      (Parser.at (ascii "0x" ++ numeral 16 (toU64 x) ++ rest) i s).getToken tokens =
        .ok (TOKEN_INTEGER, .at rest x (ascii "0x" ++ numeral 16 (toU64 x)))) ∧
    (∀ x : Int, x < 0 → (Parser.at (signedNumeral x ++ rest) i s).getToken tokens =
      .ok ((Parser.at (numeral 10 (-x).toNat ++ rest) i [0x2d]).getTokenFromName tokens [0x2d])) ∧
    (∀ digits : List UInt8, (∀ c ∈ digits, isDigit 10 c = true) → EndsDigits 10 rest →
      TOKEN_MAXLEN ≤ digits.length → ∃ e, (Parser.at (digits ++ rest) i s).getToken tokens = .error e) ∧
    ∀ digits : List UInt8, (∀ c ∈ digits, isDigit 16 c = true) → EndsDigits 16 rest →
      TOKEN_MAXLEN ≤ (ascii "0x" ++ digits).length →
        ∃ e, (Parser.at (ascii "0x" ++ digits ++ rest) i s).getToken tokens = .error e := by
  refine ⟨fun w _ hlen => getToken_string tokens rest i s hlen,
    fun w _ hlen hspace hback => (getToken_regex_iff tokens rest i s hlen).mpr ⟨hspace, hback⟩,
    fun x hx hrest => ?_, fun x hx hrest => ?_, fun x hx => ?_,
    fun digits hdigits hrest hlen => ⟨_, getToken_long tokens rest i s hdigits hrest hlen⟩,
    fun digits hdigits hrest hlen => ⟨_, getToken_hex_long tokens rest i s hdigits hrest hlen⟩⟩
  · obtain ⟨hlt, hvalue⟩ := signed64_toU64 hx
    rw [getToken_decimal tokens rest i s hlt hrest, hvalue]
  · obtain ⟨hlt, hvalue⟩ := signed64_toU64 hx
    rw [getToken_hex tokens rest i s hlt hrest, hvalue]
  · rw [signedNumeral, if_pos hx]
    exact getToken_minus tokens rest i s _

theorem sample_literals :
    (Parser.at (stringText (ascii "a\"b") ++ ascii ")") 0 []).getToken [] = .ok (TOKEN_STRING, .at (ascii ")") 0 (ascii "a\"b")) ∧
    (Parser.at (regexText (ascii "\\(%rip.*/") ++ ascii ")") 0 []).getToken [] =
      .ok (TOKEN_REGEX, .at (ascii ")") 0 (ascii "\\(%rip.*/")) ∧
    (Parser.at (ascii "0xfffffffffffffffe)") 0 []).getToken [] =
      .ok (TOKEN_INTEGER, .at (ascii ")") (-2) (ascii "0xfffffffffffffffe")) := by
  obtain ⟨hstring, hregex, -, hhex, -⟩ := literal_tokens [] (ascii ")") 0 []
  refine ⟨hstring _ (by decide) (by decide),
    hregex _ (by decide) (by decide) (by decide) (by decide), ?_⟩
  exact hhex (-2) ⟨by decide, by decide⟩ (by rintro c ⟨⟩; exact ⟨by decide, by decide⟩)

/-- Whatever the table of names, a regular expression behind a space is not read, nor is a number with its sign. -/
theorem space_divides : ¬(∃ tokens q, (Parser.at (regexText (ascii " x")) 0 []).getToken tokens = .ok (TOKEN_REGEX, q) ∧
      q.s = ascii " x") ∧
    ¬∃ tokens q, (Parser.at (signedNumeral (-5)) 0 []).getToken tokens = .ok (TOKEN_INTEGER, q) ∧ q.text = [] := by
  constructor
  · rintro ⟨tokens, q, hread, hs⟩
    have hcode : (Parser.at (regexText (ascii " x")) 0 []).getToken tokens =
        .ok ((Parser.at (ascii " x/") 0 [0x2f]).getTokenFromName tokens [0x2f]) := rfl
    rw [hcode] at hread
    have hname := (getTokenFromName_s tokens (Parser.at (ascii " x/") 0 [0x2f]) [0x2f]).1
    rw [Except.ok.inj hread] at hname
    exact absurd (hs.symm.trans hname) (by decide)
  · rintro ⟨tokens, q, hread, htext⟩
    have hcode : (Parser.at (signedNumeral (-5)) 0 []).getToken tokens =
        .ok ((Parser.at (ascii "5") 0 [0x2d]).getTokenFromName tokens [0x2d]) := rfl
    rw [hcode] at hread
    have hname := (getTokenFromName_s tokens (Parser.at (ascii "5") 0 [0x2d]) [0x2d]).2
    rw [Except.ok.inj hread] at hname
    exact absurd (htext.symm.trans hname) (by decide)

end E9Tool
