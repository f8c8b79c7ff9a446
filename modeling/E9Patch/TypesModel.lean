import Mathlib.Data.List.Lex
import Mathlib.Data.Prod.Lex
import Mathlib.Order.Lattice
import E9Patch.AllocModel
import E9Patch.Bytes
import E9Patch.DynamicSymbols
import E9Patch.Numerals
import E9Patch.OrderedMap

/-!
Type signatures of the functions that a patch calls (`e9types.cpp`). A signature has the types of up to eight
arguments, one byte each, and a symbol is a name with a signature. The symbols of a file are taken from
mangled names; a lookup that has no exact match coerces, and keeps its result among the symbols.
Names are without their final NUL, and whether a symbol was inserted is not returned. The build is that of
`make release`, whose `NDEBUG` drops the assertions of `setType`: they fail for `const T **`, which what is behind
them takes like any other type.
-/

namespace E9Tool
open E9Patch (Elf64_Sym STT_FUNC INTPTR_MIN)

def MAX_ARGNO : Nat := 8

def TYPE_NONE : Nat := 0x00
def TYPE_CHAR : Nat := 0x01
def TYPE_INT8 : Nat := 0x02
def TYPE_INT16 : Nat := 0x03
def TYPE_INT32 : Nat := 0x04
def TYPE_INT64 : Nat := 0x05
def TYPE_VOID : Nat := 0x06
def TYPE_NULL_PTR : Nat := 0x07
def TYPE_PTR : Nat := 0x10
def TYPE_PTR_PTR : Nat := 0x20
def TYPE_CONST : Nat := 0x40

def TYPESIG_EMPTY : Nat := 0
def TYPESIG_UNTYPED : Nat := 2 ^ 64 - 2

def LONG_MAX : Int := 2 ^ 63 - 1

/-- The type of argument number `idx`; the cast to a byte drops those before it. -/
def getType (sig idx : Nat) : Nat := sig / 256 ^ (7 - idx) % 256

/-- The byte of argument number `idx` is cleared, and the type goes into its place. -/
def setType (sig t idx : Nat) : Nat := sig - getType sig idx * 256 ^ (7 - idx) + t * 256 ^ (7 - idx)

/-! ### Coercion -/

def isInt (t : Nat) : Bool := t = TYPE_INT8 ∨ t = TYPE_INT16 ∨ t = TYPE_INT32 ∨ t = TYPE_INT64

/-- The coercion of pointers, where `ptr` is the kind of pointer. -/
def coerciblePtr (ptr t u : Nat) : Option Int :=
  if t &&& ptr ≠ 0 ∧ u &&& ptr ≠ 0 then
    if u = t ||| TYPE_CONST then some 1
    else if t &&& TYPE_CONST = 0 ∧ u = TYPE_VOID ||| ptr then some 5
    else if u = TYPE_CONST ||| TYPE_VOID ||| ptr then some 9
    else none
  else none

/-- The score of a coercion of one type into another, or -1. -/
def coercibleType (t u : Nat) : Int :=
  if t = u then 0
  else if t > u then -1
  else if isInt t then
    if isInt u then u - t else -1
  else if t = TYPE_NULL_PTR ∧ u &&& TYPE_PTR ≠ 0 then 4
  else ((coerciblePtr TYPE_PTR t u).or (coerciblePtr TYPE_PTR_PTR t u)).getD (-1)

/-- The loop over the arguments from number `i` on. -/
def coercibleFrom (sig1 sig2 : Nat) : Nat → Nat → Int → Int
  | 0, _, score => score
  | n + 1, i, score =>
    let s := coercibleType (getType sig1 i) (getType sig2 i)
    if s < 0 then -1 else coercibleFrom sig1 sig2 n (i + 1) (score * 16 + s)

/-- How close the signatures match, or -1. -/
def coercible (sig1 sig2 : Nat) : Int :=
  if sig2 = TYPESIG_UNTYPED then LONG_MAX - 1 else coercibleFrom sig1 sig2 MAX_ARGNO 0 0

/-! ### Symbols -/

structure Symbol where
  name : List UInt8
  sig : Nat
  deriving DecidableEq, Repr

/-- Symbols are ordered by their names as `strcmp` does it, then by their signatures. -/
def Symbol.key (sym : Symbol) : List Nat ×ₗ Nat := toLex (sym.name.map UInt8.toNat, sym.sig)

theorem Symbol.key_inj : Function.Injective Symbol.key := by
  rintro ⟨n, s⟩ ⟨m, t⟩ h
  have h := congrArg ofLex h
  simp only [key, ofLex_toLex, Prod.mk.injEq] at h
  obtain ⟨hn, rfl⟩ := h
  rw [(List.map_injective_iff.mpr fun a b hab => UInt8.toNat_inj.mp hab) hn]

instance : LinearOrder Symbol := LinearOrder.lift' Symbol.key Symbol.key_inj

/-- Addresses: the least one for a symbol that is missing, negated for one that was derived by a coercion. -/
abbrev Symbols := List (Symbol × Int)

def insertSymbol (symbols : Symbols) (name : List UInt8) (sig : Nat) (addr : Int) : Symbols :=
  OrderedMap.insert symbols ⟨name, sig⟩ addr

/-! ### Mangled names -/

def isdigit (c : UInt8) : Bool := 0x30 ≤ c ∧ c ≤ 0x39

def digit (c : UInt8) : Nat := c.toNat - 0x30

/-- The rest of the length of a name; there are at most four more digits. -/
def parseLength : Nat → Nat → List UInt8 → Option (Nat × List UInt8)
  | _, len, [] => some (len, [])
  | i, len, c :: s =>
    if isdigit c then
      if i > 3 then none else parseLength (i + 1) (len * 10 + digit c) s
    else some (len, c :: s)

/-- Up to `k` digits of the number of a substitution, and whether there is one. -/
def parseIndex : Nat → Nat → Bool → List UInt8 → Nat × Bool × List UInt8
  | 0, j, z, s => (j, z, s)
  | _, j, z, [] => (j, z, [])
  | k + 1, j, z, c :: s => if isdigit c then parseIndex k (j * 10 + digit c) false s else (j, z, c :: s)

/-- A substitution, behind its `S`. -/
def parseSubst (dict : List Nat) (s : List UInt8) : Option (Nat × List UInt8) :=
  let (j, z, s) := parseIndex 2 0 true s
  let j := if z then j else j + 1
  match s with
  | 0x5F :: s => (dict[j]?).map fun t => (t, s)  -- '_'
  | _ => none

/-- The pointers and the qualifier in front of a type. -/
def parsePointer : List UInt8 → Nat × List UInt8
  | 0x50 :: 0x50 :: 0x4B :: s => (TYPE_PTR_PTR ||| TYPE_CONST, s)  -- "PPK"
  | 0x50 :: 0x50 :: s => (TYPE_PTR_PTR, s)
  | 0x50 :: 0x4B :: s => (TYPE_PTR ||| TYPE_CONST, s)  -- "PK"
  | 0x50 :: s => (TYPE_PTR, s)
  | s => (TYPE_NONE, s)

def baseType (c : UInt8) : Option Nat :=
  if c = 0x63 then some TYPE_CHAR  -- 'c'
  else if c = 0x61 ∨ c = 0x68 then some TYPE_INT8  -- 'a', 'h'
  else if c = 0x73 ∨ c = 0x74 then some TYPE_INT16  -- 's', 't'
  else if c = 0x69 ∨ c = 0x6A then some TYPE_INT32  -- 'i', 'j'
  else if c = 0x6C ∨ c = 0x6D then some TYPE_INT64  -- 'l', 'm'
  else if c = 0x76 then some TYPE_VOID  -- 'v'
  else none

/-- What a type adds to the dictionary. -/
def dictTypes (t : Nat) : List Nat :=
  if t &&& TYPE_PTR_PTR ≠ 0 then
    (if t &&& TYPE_CONST ≠ 0 then [t - TYPE_PTR_PTR] else []) ++ [(t - TYPE_PTR_PTR) ||| TYPE_PTR, t]
  else if t &&& TYPE_PTR ≠ 0 then
    (if t &&& TYPE_CONST ≠ 0 then [t - TYPE_PTR] else []) ++ [t]
  else []

/-- The type of one argument, the dictionary with it, and what is behind it. -/
def parseType (dict : List Nat) : List UInt8 → Option (Nat × List Nat × List UInt8)
  | 0x53 :: s => (parseSubst dict s).map fun r => (r.1, dict, r.2)  -- 'S'
  | 0x44 :: 0x6E :: s => some (TYPE_NULL_PTR, dict, s)  -- "Dn"
  | s =>
    let (t, s) := parsePointer s
    match s with
    | [] => none
    | c :: s => (baseType c).map fun b => (t ||| b, dict ++ dictTypes (t ||| b), s)

/-- The loop over the arguments from number `i` on, of which there are at most `n`: their number and signature. -/
def parseTypes : Nat → Nat → Nat → List Nat → List UInt8 → Option (Nat × Nat)
  | 0, i, sig, _, _ => some (i, sig)
  | _, i, sig, _, [] => some (i, sig)
  | n + 1, i, sig, dict, s => do
    let (t, dict, s) ← parseType dict s
    parseTypes n (i + 1) (setType sig t i) dict s

/-- The arguments of a function; a single `v` stands for none. -/
def parseArgs (s : List UInt8) : Option (Nat × Nat) :=
  parseTypes MAX_ARGNO 0 TYPESIG_EMPTY [] (if s = [0x76] then [] else s)

/-- Insert the symbol that a mangled name stands for. -/
def parseSymbol (symbols : Symbols) (name : List UInt8) (addr : Int) : Symbols :=
  match name with
  | 0x5F :: 0x5A :: c :: s =>  -- "_Z"
    if isdigit c ∧ c ≠ 0x30 then
      match parseLength 0 (digit c) s with
      | none => symbols
      | some (len, n) =>
        if len ≥ n.length then insertSymbol symbols name TYPESIG_UNTYPED addr
        else
          match parseArgs (n.drop len) with
          | none => insertSymbol symbols name TYPESIG_UNTYPED addr
          | some (i, sig) =>
            -- with all arguments in use the symbol goes in twice
            let symbols := if i ≥ MAX_ARGNO then insertSymbol symbols name TYPESIG_UNTYPED addr else symbols
            insertSymbol symbols (n.take len) sig addr
    else insertSymbol symbols name TYPESIG_UNTYPED addr
  | _ => insertSymbol symbols name TYPESIG_UNTYPED addr

/-! ### Lookup -/

/-- Where symbols are looked up: what is read of a file. -/
structure Exports where
  base : Int
  dynsyms : List (List UInt8 × Elf64_Sym)

/-- Build the cache from the functions among the dynamic symbols. -/
def Exports.build (elf : Exports) : Symbols :=
  elf.dynsyms.foldl (fun symbols entry =>
    if entry.2.st_info &&& 0xf = STT_FUNC then
      parseSymbol symbols entry.1 (Bytes.signed64 (elf.base + entry.2.st_value))
    else symbols) []

/-- The score and the address of the best symbol so far. -/
def nearer (sig : Nat) (best : Int × Int) (entry : Symbol × Int) : Int × Int :=
  let nscore := coercible sig entry.1.sig
  if nscore < 0 then best
  else if entry.2 ≠ INTPTR_MIN ∧ nscore < best.1 then (nscore, entry.2.natAbs)
  else best

/-- The symbols of a name, from the lower to the upper bound of its signatures. -/
def symbolsOf (symbols : Symbols) (name : List UInt8) : Symbols := symbols.filter fun entry => entry.1.name = name

def optimalCoercion (symbols : Symbols) (name : List UInt8) (sig : Nat) : Int :=
  ((symbolsOf symbols name).foldl (nearer sig) (LONG_MAX, INTPTR_MIN)).2

/-- The address of the symbol, and the cache with it. -/
def lookupSymbol (elf : Exports) (symbols : Symbols) (name : List UInt8) (sig : Nat) : Int × Symbols :=
  let symbols := if symbols.length = 0 then elf.build else symbols
  match OrderedMap.find symbols ⟨name, sig⟩ with
  | some addr => (if addr = INTPTR_MIN then addr else if addr < 0 then -addr else addr, symbols)
  | none =>
    let addr := optimalCoercion symbols name sig
    (addr, insertSymbol symbols name sig (if addr > 0 then -addr else addr))

end E9Tool
