import E9Patch.BinaryModel
import E9Patch.Numerals

/-!
The JSON reader of the backend (`e9json.cpp`): tokens, and the values that are made of them. The stream is
the list of the bytes still to be read. A character is read through a `char`, so that the byte `FF` is taken
for the end of the file; the reader's number and string are kept with the token.
-/

namespace E9Patch
open Bytes Numerals

def STRING_MAX : Nat := 1024
def NUMBER_MAX : Nat := 12

/-- `EOF`, as a `char`. -/
def EOF : UInt8 := 0xff

inductive Token where
  | symbol (c : UInt8)
  | eof
  | null
  | bool (b : Bool)
  | number (i : Int)
  | string (s : List UInt8)
  deriving DecidableEq, Repr

def TOKEN_NULL : UInt8 := 0x30
def TOKEN_BOOL : UInt8 := 0x42
def TOKEN_STRING : UInt8 := 0x53
def TOKEN_NUMBER : UInt8 := 0x4e

/-- The character that stands for a token. -/
def Token.kind : Token → UInt8
  | .symbol c => c
  | .eof => EOF
  | .null => TOKEN_NULL
  | .bool _ => TOKEN_BOOL
  | .number _ => TOKEN_NUMBER
  | .string _ => TOKEN_STRING

inductive ParseErrorKind where
  | numberLength
  | numberRange
  | stringLength
  | stringEof
  | unicode
  | badToken (c : UInt8)
  | expected (token : List UInt8) (got : UInt8)
  | unexpected (object : String) (got : UInt8)
  | notANumber (s : List UInt8)
  | integer (bits : Nat) (x : Int)
  | byte (i : Int)
  | typeName (s : List UInt8)
  | fault (f : Fault)
  | fuel
  deriving DecidableEq, Repr

/-- A parse error, or the end of the program by a fault, with its line. -/
structure ParseError where
  lineno : Nat
  kind : ParseErrorKind
  deriving DecidableEq, Repr

/-- JSON parser. -/
structure Parser where
  stream : List UInt8
  lineno : Nat
  peek : Option Token
  deriving DecidableEq, Repr

def Parser.fail {α : Type} (p : Parser) (kind : ParseErrorKind) : Except ParseError α := .error ⟨p.lineno, kind⟩

/-! ### Tokens -/

def isspace (c : UInt8) : Bool := c = 0x20 ∨ (0x09 ≤ c ∧ c ≤ 0x0d)
def isdigit (c : UInt8) : Bool := 0x30 ≤ c ∧ c ≤ 0x39

/-- The line number behind a character. -/
def countLine (c : UInt8) (lineno : Nat) : Nat := if c = 0x0a then lineno + 1 else lineno

def skipSpaces : List UInt8 → Nat → List UInt8 × Nat
  | [], lineno => ([], lineno)
  | c :: stream, lineno => if isspace c then skipSpaces stream (countLine c lineno) else (c :: stream, lineno)

/-- The rest of a keyword that starts with `c`. -/
def readWord (c : UInt8) : List UInt8 → List UInt8 → Nat → Except ParseError (List UInt8)
  | [], stream, _ => .ok stream
  | _ :: _, [], lineno => .error ⟨lineno, .badToken c⟩
  | w :: word, d :: stream, lineno =>
    if d = w then readWord c word stream lineno else .error ⟨countLine d lineno, .badToken c⟩

/-- The rest of a number, with the characters so far. The character behind it is put back, which does
nothing for the end of the file. -/
def readDigits (lineno : Nat) : List UInt8 → List UInt8 → Except ParseError (List UInt8 × List UInt8)
  | stream, s =>
    if s.length ≥ NUMBER_MAX then .error ⟨lineno, .numberLength⟩
    else
      match stream with
      | [] => .ok (s, [])
      | c :: stream =>
        if isdigit c then readDigits lineno stream (s ++ [c])
        else .ok (s, if c = EOF then stream else c :: stream)

/-- `strtoll(s, nullptr, 10)`, of a sign and digits. -/
def strtoll (s : List UInt8) : Int :=
  match s with
  | [] => 0
  | c :: digits => if c = 0x2d then -ofDigits 10 digits else ofDigits 10 s

/-- What an escaped character stands for. -/
def unescape (c : UInt8) : UInt8 :=
  if c = 0x74 then 0x09
  else if c = 0x6e then 0x0a
  else if c = 0x72 then 0x0d
  else if c = 0x62 then 0x08
  else if c = 0x66 then 0x0c
  else c

/-- The rest of a string, with the characters so far. -/
def readString : List UInt8 → Nat → List UInt8 → Except ParseError (List UInt8 × List UInt8 × Nat)
  | stream, lineno, s =>
    if s.length ≥ STRING_MAX then .error ⟨lineno, .stringLength⟩
    else
      match stream with
      | [] => .error ⟨lineno, .stringEof⟩
      | c :: stream =>
        if c = 0x22 then .ok (s, stream, lineno)
        else if c = EOF then .error ⟨lineno, .stringEof⟩
        else if c = 0x5c then
          match stream with
          | [] => .error ⟨lineno, .stringEof⟩
          | d :: stream =>
            if d = EOF then .error ⟨lineno, .stringEof⟩
            else if d = 0x75 then .error ⟨lineno, .unicode⟩
            else readString stream (countLine d lineno) (s ++ [unescape d])
        else readString stream (countLine c lineno) (s ++ [c])

/-- A string up to its zero byte. -/
def cString (s : List UInt8) : List UInt8 := s.takeWhile (· ≠ 0)

/-- The characters that are tokens. -/
def symbols : List UInt8 := [0x3a, 0x2c, 0x7b, 0x7d, 0x5b, 0x5d]

/-- Read the next token, from behind the spaces. -/
def readToken (stream : List UInt8) (lineno : Nat) : Except ParseError (Token × List UInt8 × Nat) :=
  match stream with
  | [] => .ok (.eof, [], lineno)
  | c :: stream =>
    if c ∈ symbols then .ok (.symbol c, stream, lineno)
    else if c = EOF then .ok (.eof, stream, lineno)
    else if c = 0x74 then
      (readWord c [0x72, 0x75, 0x65] stream lineno).map (.bool true, ·, lineno)
    else if c = 0x66 then
      (readWord c [0x61, 0x6c, 0x73, 0x65] stream lineno).map (.bool false, ·, lineno)
    else if c = 0x6e then (readWord c [0x75, 0x6c, 0x6c] stream lineno).map (.null, ·, lineno)
    else if c = 0x2d ∨ isdigit c then do
      let r ← readDigits lineno stream [c]
      if r.1 = [0x2d] then .error ⟨lineno, .badToken 0x2d⟩
      else
        let x := strtoll r.1
        if x < -2 ^ 31 ∨ x > 2 ^ 31 - 1 then .error ⟨lineno, .numberRange⟩
        else .ok (.number x, r.2, lineno)
    else if c = 0x22 then do
      let r ← readString stream lineno []
      .ok (.string (cString r.1), r.2.1, r.2.2)
    else .error ⟨countLine c lineno, .badToken c⟩

/-- Peek at the next token. -/
def peekToken (p : Parser) : Except ParseError (Token × Parser) :=
  match p.peek with
  | some token => .ok (token, p)
  | none => do
    let s := skipSpaces p.stream p.lineno
    let r ← readToken s.1 s.2
    .ok (r.1, { stream := r.2.1, lineno := r.2.2, peek := some r.1 })

/-- Get (consume) the next token. -/
def getToken (p : Parser) : Except ParseError (Token × Parser) := do
  let r ← peekToken p
  .ok (r.1, { r.2 with peek := none })

/-- Expect one of some tokens. -/
def expectTokens (p : Parser) (tokens : List UInt8) : Except ParseError (Token × Parser) := do
  let r ← getToken p
  if r.1.kind ∈ tokens then .ok r else r.2.fail (.expected tokens r.1.kind)

/-- Expect `token`. -/
def expectToken (p : Parser) (token : UInt8) : Except ParseError (Token × Parser) := expectTokens p [token]

/-- Expect `token1` or `token2`. -/
def expectToken2 (p : Parser) (token1 token2 : UInt8) : Except ParseError (Token × Parser) :=
  expectTokens p [token1, token2]

/-! ### Numbers -/

/-- `strtoull(s, &end, base)`: the number, what is behind it, and whether it is out of range. -/
def strtoull (s : List UInt8) (base : Nat) : Nat × List UInt8 × Bool :=
  let t := s.dropWhile isspace
  let neg := t.head? = some 0x2d
  let t := if neg ∨ t.head? = some 0x2b then t.tail else t
  let t := if base = 16 ∧ t.take 2 = ascii "0x" ∧ (t.drop 2).head?.any (isDigit 16) then t.drop 2 else t
  let d := spanDigits base t
  if d.1 = [] then (0, s, false)
  else
    let x := ofDigits base d.1
    if x ≥ 2 ^ 64 then (2 ^ 64 - 1, d.2, true) else (if neg then toU64 (-x) else x, d.2, false)

/-- Convert a string into a number. -/
def stringToNumber (p : Parser) (s : List UInt8) : Except ParseError Int :=
  let neg := s.head? = some 0x2d
  let t := if neg then s.tail else s
  let base := if t.take 2 = ascii "0x" then 16 else 10
  let r := strtoull t base
  if r.2.2 ∨ r.2.1 ≠ [] then p.fail (.notANumber s)
  else
    let x := signed64 r.1
    .ok (if neg then signed64 (-x) else x)

/-- An integer parameter: a number, or a string that has one. -/
def parseInteger (p : Parser) : Except ParseError (Int × Parser) := do
  let r ← expectToken2 p TOKEN_NUMBER TOKEN_STRING
  match r.1 with
  | .number i => .ok (i, r.2)
  | .string s => do
    let x ← stringToNumber r.2 s
    .ok (x, r.2)
  | _ => r.2.fail (.unexpected "integer" r.1.kind)

/-- A string parameter. -/
def parseString (p : Parser) : Except ParseError (List UInt8 × Parser) := do
  let r ← expectToken p TOKEN_STRING
  match r.1 with
  | .string s => .ok (s, r.2)
  | _ => r.2.fail (.unexpected "string" r.1.kind)

/-- Convert an integer. -/
def convertInteger (p : Parser) (x min max : Int) (bits : Nat) : Except ParseError Int :=
  if x < min ∨ x > max then p.fail (.integer bits x)
  else .ok (if x < 0 then x + (max + 1) else x)

/-! ### Data and bytes -/

/-- A label, as it is kept in an entry. -/
def toLabel (s : List UInt8) : String := String.ofList (s.map fun c => Char.ofNat c.toNat)

/-- The value of an integer entry: a label, or a number that `convert` takes. -/
def parseValue (p : Parser) (convert : Parser → Int → Except ParseError Nat) :
    Except ParseError (Value × Parser) := do
  let r ← expectToken2 p TOKEN_NUMBER TOKEN_STRING
  match r.1 with
  | .string s =>
    if s.take 2 = ascii ".L" then .ok (.label (toLabel s), r.2)
    else do
      let x ← stringToNumber r.2 s
      let n ← convert r.2 x
      .ok (.uint64 n, r.2)
  | .number i => do
    let n ← convert r.2 i
    .ok (.uint64 n, r.2)
  | _ => r.2.fail (.unexpected "integer" r.1.kind)

/-- An integer of `bits` bits, signed or not. -/
def narrow (bits : Nat) (p : Parser) (x : Int) : Except ParseError Nat :=
  (convertInteger p x (-2 ^ (bits - 1)) (2 ^ bits - 1) bits).map Int.toNat

def wide (_ : Parser) (x : Int) : Except ParseError Nat := .ok (toU64 x)

/-- An entry as it is parsed. `none` is a label entry whose label is null. -/
abbrev ParsedEntry := Option Entry

/-- The data of a data entry with the type name `name`. -/
def parseData (p : Parser) (name : List UInt8) : Except ParseError (ParsedEntry × Parser) :=
  if name = ascii "int8" then (parseValue p (narrow 8)).map fun r => (some (.INT8 r.1), r.2)
  else if name = ascii "int16" then (parseValue p (narrow 16)).map fun r => (some (.INT16 r.1), r.2)
  else if name = ascii "int32" then (parseValue p (narrow 32)).map fun r => (some (.INT32 r.1), r.2)
  else if name = ascii "int64" then (parseValue p wide).map fun r => (some (.INT64 r.1), r.2)
  else if name = ascii "rel8" then (parseValue p wide).map fun r => (some (.REL8 r.1), r.2)
  else if name = ascii "rel32" then (parseValue p wide).map fun r => (some (.REL32 r.1), r.2)
  else if name = ascii "string" then (parseString p).map fun r => (some (.BYTES (r.1 ++ [0])), r.2)
  else if name = ascii "zeroes" then do
    let r ← expectToken p TOKEN_NUMBER
    match r.1 with
    | .number i => .ok (some (.ZEROES (i % 2 ^ 32).toNat), r.2)
    | _ => r.2.fail (.unexpected "number" r.1.kind)
  -- another name with a `z` is not refused, and the label entry stays as `memset` left it
  else .ok (none, p)

/-- Create a data template entry, behind its opening brace. -/
def makeDataEntry (p : Parser) : Except ParseError (ParsedEntry × Parser) := do
  let r ← parseString p
  let name := r.1
  if name ∈ ["int8", "int16", "int32", "int64", "rel8", "rel32", "string"].map ascii ∨
      name.head? = some 0x7a then do
    let c ← expectToken r.2 0x3a
    let d ← parseData c.2 name
    let e ← expectToken d.2 0x7d
    .ok (d.1, e.2)
  else r.2.fail (.typeName name)

/-- The loop of `parseBytes`, with a token and the bytes so far. -/
def parseBytesFrom : Nat → Token → Parser → List UInt8 → Except ParseError (List UInt8 × Parser)
  | 0, _, p, _ => p.fail .fuel
  | fuel + 1, token, p, bytes =>
    if token = .symbol 0x5d then .ok (bytes, p)
    else
      match token with
      | .number i =>
        if i < 0 ∨ i > 255 then p.fail (.byte i)
        else do
          let bytes := bytes ++ [UInt8.ofNat i.toNat]
          let r ← expectToken2 p 0x2c 0x5d
          if r.1 = .symbol 0x2c then do
            let t ← getToken r.2
            parseBytesFrom fuel t.1 t.2 bytes
          else parseBytesFrom fuel r.1 r.2 bytes
      | _ => p.fail (.unexpected "bytes entry" token.kind)

/-- Parse a bytes object. Every round of the loop takes a character of the stream. -/
def parseBytes (p : Parser) : Except ParseError (List UInt8 × Parser) := do
  let r ← expectToken p 0x5b
  let t ← getToken r.2
  parseBytesFrom (p.stream.length + 1) t.1 t.2 []

end E9Patch
