import E9Patch.Numerals
import E9Patch.Reader

/-!
The JSON helpers of the IDE protocol (`json_escape` and `e9ide_json_get_string` of `ide/e9ide_protocol.c`). A C string
is the list of its characters, and its terminator follows them. The buffer of an escaped string has two bytes for each
character while some need six, and the reader neither unescapes nor looks where in the text a key stands.
-/

namespace E9Patch
open Numerals Reader

/-- The characters of a C string. -/
structure CText where
  chars : List UInt8
  ended : 0 ∉ chars
  deriving DecidableEq

/-! ### Escape string for JSON -/

/-- A buffer that is filled from its start, and the place of the next character. -/
structure EscapeBuffer where
  out : List UInt8
  pos : Nat
  deriving DecidableEq, Repr

/-- `out[pos++] = c`. -/
def EscapeBuffer.put (b : EscapeBuffer) (out_cap : Nat) (c : UInt8) : Except Fault EscapeBuffer :=
  if b.pos < out_cap then .ok ⟨b.out ++ [c], b.pos + 1⟩ else .error .outOfBounds

/-- `snprintf` into the rest of the buffer: what there is no room for is counted, but not written. -/
def EscapeBuffer.print (b : EscapeBuffer) (out_cap : Nat) (s : List UInt8) : EscapeBuffer :=
  ⟨b.out ++ s.take (out_cap - b.pos - 1), b.pos + s.length⟩

/-- The letter of an escape of two characters. -/
def shortEscape (c : UInt8) : Option UInt8 :=
  if c = 0x22 then some 0x22
  else if c = 0x5C then some 0x5C
  else if c = 0x0A then some 0x6E
  else if c = 0x0D then some 0x72
  else if c = 0x09 then some 0x74
  else none

/-- `\u%04x`. -/
def unicodeEscape (c : UInt8) : List UInt8 :=
  [0x5C, 0x75, 0x30, 0x30, digitByte (c.toNat / 16), digitByte (c.toNat % 16)]

def escapeChar (out_cap : Nat) (b : EscapeBuffer) (c : UInt8) : Except Fault EscapeBuffer :=
  match shortEscape c with
  | some e => do
    let b ← b.put out_cap 0x5C
    b.put out_cap e
  | none => if 32 ≤ c ∧ c < 127 then b.put out_cap c else .ok (b.print out_cap (unicodeEscape c))

def escapeLoop (out_cap : Nat) : List UInt8 → EscapeBuffer → Except Fault EscapeBuffer
  | [], b => .ok b
  | c :: s, b =>
    if b.pos < out_cap - 2 then do
      let b ← escapeChar out_cap b c
      escapeLoop out_cap s b
    else .ok b

def json_escape (s : List UInt8) : Except Fault (List UInt8) := do
  let out_cap := s.length * 2 + 3
  let b ← EscapeBuffer.put ⟨[], 0⟩ out_cap 0x22
  let b ← escapeLoop out_cap s b
  let b ← b.put out_cap 0x22
  let _ ← b.put out_cap 0
  .ok b.out

/-! ### Simple JSON field extraction -/

/-- `"%s":` in 128 bytes with the terminator. -/
def keyPattern (key : List UInt8) : List UInt8 := (0x22 :: key ++ [0x22, 0x3A]).take 127

/-- The text from the first place of the pattern on. -/
def strstr : List UInt8 → List UInt8 → Option (List UInt8)
  | [], pattern => if pattern.isPrefixOf [] then some [] else none
  | c :: s, pattern => if pattern.isPrefixOf (c :: s) then some (c :: s) else strstr s pattern

/-- The number of characters up to the next quote or the terminator. Of a backslash and what follows it neither is
looked at; if the terminator follows it, the loop goes on behind the text. -/
def stringEnd : List UInt8 → Except Fault Nat
  | [] => .ok 0
  | c :: s =>
    if c = 0x22 then .ok 0
    else if c = 0x5C then
      match s with
      | [] => .error .outOfBounds
      | _ :: s => do
        let n ← stringEnd s
        .ok (n + 2)
    else do
      let n ← stringEnd s
      .ok (n + 1)

def e9ide_json_get_string (json key : List UInt8) : Except Fault (Option (List UInt8)) :=
  match strstr json (keyPattern key) with
  | none => .ok none
  | some pos =>
    match (pos.drop (keyPattern key).length).dropWhile fun c => c = 0x20 || c = 0x09 with
    | [] => .ok none
    | c :: content =>
      if c = 0x22 then do
        let len ← stringEnd content
        .ok (some (content.take len))
      else .ok none

/-! ### JSON texts -/

/-- A character of a JSON string of ASCII characters. -/
inductive JsonChar : List UInt8 → Prop where
  | plain {c : UInt8} : 32 ≤ c → c < 128 → c ≠ 0x22 → c ≠ 0x5C → JsonChar [c]
  | short {c : UInt8} : c ∈ ascii "\"\\/bfnrt" → JsonChar [0x5C, c]
  | unicode {s : List UInt8} : s.length = 4 → (∀ c ∈ s, isDigit 16 c = true) → JsonChar (0x5C :: 0x75 :: s)

def IsStringLiteral (t : List UInt8) : Prop :=
  ∃ chars : List (List UInt8), (∀ x ∈ chars, JsonChar x) ∧ t = 0x22 :: chars.flatten ++ [0x22]

/-- Strings, and objects of such values. -/
inductive IdeValue where
  | string (s : CText)
  | object (members : List (CText × IdeValue))

/-- White space. -/
def IsSpace (ws : List UInt8) : Prop := ∀ c ∈ ws, c ∈ [0x20, 0x09, 0x0A, 0x0D]

mutual

/-- The texts of a value whose strings are escaped ones. -/
inductive ValueText : IdeValue → List UInt8 → Prop where
  | string {s : CText} {t : List UInt8} : json_escape s.chars = .ok t → ValueText (.string s) t
  | empty {ws : List UInt8} : IsSpace ws → ValueText (.object []) (0x7B :: ws ++ [0x7D])
  | object {members : List (CText × IdeValue)} {t : List UInt8} : MembersText members t →
      ValueText (.object members) (0x7B :: t ++ [0x7D])

/-- The texts of one or more members. -/
inductive MembersText : List (CText × IdeValue) → List UInt8 → Prop where
  | one {key : CText} {v : IdeValue} {t : List UInt8} : MemberText key v t → MembersText [(key, v)] t
  | more {key : CText} {v : IdeValue} {members : List (CText × IdeValue)} {t u : List UInt8} : MemberText key v t →
      MembersText members u → MembersText ((key, v) :: members) (t ++ 0x2C :: u)

inductive MemberText : CText → IdeValue → List UInt8 → Prop where
  | member {key : CText} {v : IdeValue} {k t a b c d : List UInt8} : json_escape key.chars = .ok k → ValueText v t →
      IsSpace a → IsSpace b → IsSpace c → IsSpace d → MemberText key v (a ++ k ++ b ++ 0x3A :: c ++ t ++ d)

end

/-- The text of an object, and its members. -/
structure IdeObject where
  members : List (CText × IdeValue)
  text : List UInt8
  made : ValueText (.object members) text

/-- The top-level members that are strings. -/
def IdeObject.strings (o : IdeObject) : List (CText × CText) :=
  o.members.filterMap fun (key, v) =>
    match v with
    | .string s => some (key, s)
    | .object _ => none

end E9Patch
