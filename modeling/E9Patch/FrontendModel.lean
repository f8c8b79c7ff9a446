import E9Patch.AllocModel
import E9Patch.Bytes
import E9Patch.Numerals

/-!
How the frontend writes values into a message (`e9frontend.cpp`, `e9metadata.cpp`): integers, strings,
bytes, and the data of an immediate operand. What is written to the stream is the list of its bytes.
-/

namespace E9Tool
open Bytes Numerals
open E9Patch (toU64)

/-- Send an integer parameter. -/
def sendInteger (i : Int) : List UInt8 :=
  if i ≥ -2 ^ 31 ∧ i ≤ 2 ^ 31 - 1 then signedNumeral i
  else
    let neg := i < 0
    let x := toU64 (if neg then -i else i)
    0x22 :: (if neg then [0x2d] else []) ++ ascii "0x" ++ numeral 16 x ++ [0x22]

/-- A character of a string, escaped where it has to be. -/
def escape (c : UInt8) : List UInt8 :=
  if c = 0x5c then [0x5c, 0x5c]
  else if c = 0x22 then [0x5c, 0x22]
  else if c = 0x0a then ascii "\\n"
  else if c = 0x09 then ascii "\\t"
  else if c = 0x0d then ascii "\\r"
  else if c = 0x08 then ascii "\\b"
  else if c = 0x0c then ascii "\\f"
  else [c]

/-- Send a string parameter; the string has no zero byte. -/
def sendString (s : List UInt8) : List UInt8 := 0x22 :: s.flatMap escape ++ [0x22]

/-- The numbers of `sendBytes`, with their separators. -/
def sendByteList : List UInt8 → List UInt8
  | [] => []
  | [b] => numeral 10 b.toNat
  | b :: bytes => numeral 10 b.toNat ++ 0x2c :: sendByteList bytes

/-- Send raw bytes. -/
def sendBytes (bytes : List UInt8) : List UInt8 := 0x5b :: sendByteList bytes ++ [0x5d]

/-- The template entry of an immediate operand. All but the widest are printed as an `int`. -/
def sendImmediate (size : Nat) (imm : Int) : List UInt8 :=
  if size = 1 then ascii "\x7b\"int8\":" ++ signedNumeral (signed32 imm) ++ [0x7d]
  else if size = 2 then ascii "\x7b\"int16\":" ++ signedNumeral (signed32 imm) ++ [0x7d]
  else if size = 4 then ascii "\x7b\"int32\":" ++ signedNumeral (signed32 imm) ++ [0x7d]
  else ascii "\x7b\"int64\":" ++ sendInteger imm ++ [0x7d]

/-- Emits operand data, for an immediate operand. -/
def sendOperandDataMetadata (name : List UInt8) (size : Nat) (imm : Int) (regno : Int) : List UInt8 :=
  ascii "\".Limm" ++ signedNumeral regno ++ ascii "@" ++ name ++ ascii "\"," ++ sendImmediate size imm ++ ascii ","

end E9Tool
