import E9Patch.JsonDiscard
import E9Patch.OrderedMap
import E9Patch.TemplateCache

/-!
The messages of the backend (`e9json.cpp`): the header, the parameters that a method takes, their values, and the
loop of the main function that reads one message after the other. Templates go through the cache.
-/

namespace E9Patch.Rpc
open Bytes Numerals

/-- Supported methods. -/
inductive Method where
  | UNKNOWN
  | BINARY
  | EMIT
  | INSTRUCTION
  | OPTIONS
  | PATCH
  | RESERVE
  | TRAMPOLINE
  deriving DecidableEq, Repr

/-- Supported parameters. -/
inductive ParamName where
  | UNKNOWN
  | ABSOLUTE
  | ADDRESS
  | ARGV
  | BYTES
  | FILENAME
  | FINI
  | FORMAT
  | INIT
  | LENGTH
  | METADATA
  | MMAP
  | MODE
  | NAME
  | OFFSET
  | POSTINIT
  | PREINIT
  | PROTECTION
  | TEMPLATE
  | TRAMPOLINE
  | VERSION
  deriving DecidableEq, Repr

/-- Supported formats. -/
inductive Format where
  | BINARY
  | PATCH
  | PATCH_GZ
  | PATCH_BZIP2
  | PATCH_XZ
  deriving DecidableEq, Repr

/-- Parameter values. The integers of a protection, a format and a mode are kept as what they stand for. -/
inductive ParamValue where
  | boolean (b : Bool)
  | integer (i : Int)
  | string (s : List UInt8)
  | strings (ss : List (List UInt8))
  | trampoline (T : ParsedTrampoline)
  | metadata (entries : List (List Nat × ParsedTrampoline))
  | protection (prot : Nat)
  | format (format : Format)
  | mode (mode : Mode)
  deriving DecidableEq, Repr

structure Param where
  name : ParamName
  value : ParamValue
  deriving DecidableEq, Repr

def PARAM_MAX : Nat := 8

structure Message where
  method : Method
  lineno : Nat
  id : Nat
  params : List Param
  deriving DecidableEq, Repr

inductive MessageErrorKind where
  | parse (kind : ParseErrorKind)
  | expected (str got : List UInt8)
  | macroName (name : List UInt8)
  | duplicate (name : List UInt8)
  | protection (str : List UInt8) (c got : UInt8)
  | protectionLength (str : List UInt8)
  | format (str : List UInt8)
  | mode (str : List UInt8)
  | params
  deriving DecidableEq, Repr

structure MessageError where
  lineno : Nat
  kind : MessageErrorKind
  deriving DecidableEq, Repr

/-- What a part of a message leaves: the cache and the parser behind it. -/
abbrev Rest : Type := List ParsedTrampoline × Parser

/-- An error of the reader of values. -/
def lift {α : Type} (x : Except ParseError α) : Except MessageError α := x.mapError fun e => ⟨e.lineno, .parse e.kind⟩

def failMessage {α : Type} (p : Parser) (kind : MessageErrorKind) : Except MessageError α := .error ⟨p.lineno, kind⟩

/-- Expect the specific string token. -/
def expectString (p : Parser) (str : List UInt8) : Except MessageError Parser := do
  let r ← lift (parseString p)
  if r.1 = str then .ok r.2 else failMessage r.2 (.expected str r.1)

/-- Match parameter names against methods. -/
def validateParam : Method → ParamName → Bool
  | .BINARY, name => name ∈ [.FILENAME, .MODE, .VERSION]
  | .INSTRUCTION, name => name ∈ [.ADDRESS, .LENGTH, .OFFSET]
  | .PATCH, name => name ∈ [.METADATA, .OFFSET, .TRAMPOLINE]
  | .EMIT, name => name ∈ [.FILENAME, .FORMAT]
  | .RESERVE, name => name ∈ [.ABSOLUTE, .ADDRESS, .BYTES, .FINI, .INIT, .LENGTH, .MMAP, .POSTINIT, .PREINIT, .PROTECTION]
  | .TRAMPOLINE, name => name ∈ [.NAME, .TEMPLATE]
  | .OPTIONS, name => name ∈ [.ARGV]
  | .UNKNOWN, _ => false

/-- The names of the parameters. -/
def paramNames : List (String × ParamName) :=
  [("address", .ADDRESS), ("absolute", .ABSOLUTE), ("argv", .ARGV), ("bytes", .BYTES), ("filename", .FILENAME),
    ("format", .FORMAT), ("fini", .FINI), ("init", .INIT), ("length", .LENGTH), ("offset", .OFFSET),
    ("preinit", .PREINIT), ("postinit", .POSTINIT), ("protection", .PROTECTION), ("metadata", .METADATA),
    ("mode", .MODE), ("mmap", .MMAP), ("name", .NAME), ("trampoline", .TRAMPOLINE), ("template", .TEMPLATE),
    ("version", .VERSION)]

def methodNames : List (String × Method) :=
  [("binary", .BINARY), ("emit", .EMIT), ("instruction", .INSTRUCTION), ("options", .OPTIONS), ("patch", .PATCH),
    ("reserve", .RESERVE), ("trampoline", .TRAMPOLINE)]

def formats : List (String × Format) :=
  [("binary", .BINARY), ("patch", .PATCH), ("patch.gz", .PATCH_GZ), ("patch.bz2", .PATCH_BZIP2),
    ("patch.xz", .PATCH_XZ)]

def modes : List (String × Mode) :=
  [("elf.exe", .ELF_EXE), ("elf.dso", .ELF_DSO), ("pe.exe", .PE_EXE), ("pe.dll", .PE_DLL)]

/-- What a string stands for. -/
def lookup {α : Type} (names : List (String × α)) (s : List UInt8) : Option α :=
  (names.find? fun e => ascii e.1 = s).map (·.2)

def parseParamName (s : List UInt8) : ParamName := (lookup paramNames s).getD .UNKNOWN

def parseMethod (s : List UInt8) : Method := (lookup methodNames s).getD .UNKNOWN

/-! ### Values -/

/-- The loop of `parseStrings`. -/
def parseStringsFrom : Nat → Token → Parser → List (List UInt8) → Except ParseError (List (List UInt8) × Parser)
  | 0, _, p, _ => p.fail .fuel
  | fuel + 1, token, p, strings =>
    if token = .symbol 0x5d then .ok (strings, p)
    else
      match token with
      | .string s => do
        let r ← expectToken2 p 0x2c 0x5d
        let t ← if r.1 = .symbol 0x2c then getToken r.2 else .ok r
        parseStringsFrom fuel t.1 t.2 (strings ++ [s])
      | _ => p.fail (.unexpected "strings entry" token.kind)

/-- Parse strings. Every round of the loop takes a character of the stream. -/
def parseStrings (p : Parser) (first : List UInt8) : Except ParseError (List (List UInt8) × Parser) := do
  let r ← expectToken p 0x5b
  let t ← expectToken2 r.2 0x5d TOKEN_STRING
  parseStringsFrom (p.stream.length + 1) t.1 t.2 [first]

/-- The loop of `parseMetadata`; a macro is looked up by its name, as `strcmp` compares names. Behind a comma the source
takes any other token than a brace for the string that was read last; here it has to be a string. -/
def parseMetadataFrom : Nat → Token → Parser → List ParsedTrampoline → List (List Nat × ParsedTrampoline) →
    Except MessageError (List (List Nat × ParsedTrampoline) × Rest)
  | 0, _, p, _, _ => lift (p.fail .fuel)
  | fuel + 1, token, p, cache, entries =>
    if token = .symbol 0x7d then .ok (entries, cache, p)
    else
      match token with
      | .string s =>
        if s.head? ≠ some 0x24 then failMessage p (.macroName s)
        else if (OrderedMap.find entries (s.map UInt8.toNat)).isSome then failMessage p (.duplicate s)
        else do
          let c ← lift (expectToken p 0x3a)
          let T ← lift (parseTemplate c.2 false cache)
          let r ← lift (expectToken2 T.2 0x2c 0x7d)
          let t ← if r.1 = .symbol 0x2c then lift (getToken r.2) else .ok r
          parseMetadataFrom fuel t.1 t.2 T.1.2 (OrderedMap.insert entries (s.map UInt8.toNat) T.1.1)
      | _ => lift (p.fail (.unexpected "metadata" token.kind))

/-- Parse instruction metadata. -/
def parseMetadata (p : Parser) (cache : List ParsedTrampoline) :
    Except MessageError (List (List Nat × ParsedTrampoline) × Rest) := do
  let r ← lift (expectToken p 0x7b)
  let t ← lift (expectToken2 r.2 0x7d TOKEN_STRING)
  parseMetadataFrom (p.stream.length + 1) t.1 t.2 cache []

/-- Parse a protection. -/
def parseProtection (p : Parser) (str : List UInt8) (i : Nat) (c : UInt8) (prot : Nat) : Except MessageError Nat :=
  if byteAt str i = c then .ok prot
  else if byteAt str i = 0x2d then .ok 0
  else failMessage p (.protection str c (byteAt str i))

/-- A bytes object as a template, which does not go through the cache. -/
def bytesTrampoline (bytes : List UInt8) : ParsedTrampoline := newTrampoline [some (.BYTES bytes)]

/-- The value of a parameter. -/
def parseParam (p : Parser) (cache : List ParsedTrampoline) : ParamName → Except MessageError (ParamValue × Rest)
  | .ADDRESS | .OFFSET | .LENGTH | .INIT | .FINI | .MMAP => do
    let r ← lift (parseInteger p)
    .ok (.integer r.1, cache, r.2)
  | .ABSOLUTE => do
    let r ← lift (expectToken p TOKEN_BOOL)
    .ok (.boolean (r.1 = .bool true), cache, r.2)
  | .ARGV => do
    let r ← lift (parseStrings p (ascii "<option>"))
    .ok (.strings r.1, cache, r.2)
  | .FILENAME | .NAME | .VERSION => do
    let r ← lift (parseString p)
    .ok (.string r.1, cache, r.2)
  | .TRAMPOLINE => do
    let r ← lift (parseTemplate p true cache)
    .ok (.trampoline r.1.1, r.1.2, r.2)
  | .TEMPLATE => do
    let r ← lift (parseTemplate p false cache)
    .ok (.trampoline r.1.1, r.1.2, r.2)
  | .METADATA => do
    let r ← parseMetadata p cache
    .ok (.metadata r.1, r.2)
  | .PROTECTION => do
    let r ← lift (parseString p)
    let read ← parseProtection r.2 r.1 0 0x72 PROT_READ
    let write ← parseProtection r.2 r.1 1 0x77 PROT_WRITE
    let exec ← parseProtection r.2 r.1 2 0x78 PROT_EXEC
    if byteAt r.1 3 ≠ 0 then failMessage r.2 (.protectionLength r.1)
    else .ok (.protection (read ||| write ||| exec), cache, r.2)
  | .PREINIT | .POSTINIT | .BYTES => do
    let r ← lift (parseBytes p)
    .ok (.trampoline (bytesTrampoline r.1), cache, r.2)
  | .FORMAT => do
    let r ← lift (parseString p)
    match lookup formats r.1 with
    | some format => .ok (.format format, cache, r.2)
    | none => failMessage r.2 (.format r.1)
  | .MODE => do
    let r ← lift (parseString p)
    match lookup modes r.1 with
    | some mode => .ok (.mode mode, cache, r.2)
    | none => failMessage r.2 (.mode r.1)
  | .UNKNOWN => do
    let q ← lift (parseAndDiscardObject p)
    .ok (.string [], cache, q)

/-! ### Messages -/

/-- The loop of `parseParams`, behind the name `s` of a parameter. -/
def parseParamsFrom (method : Method) : Nat → List UInt8 → Parser → List ParsedTrampoline → List Param →
    Except MessageError (List Param × Rest)
  | 0, _, p, _, _ => lift (p.fail .fuel)
  | fuel + 1, s, p, cache, params => do
    let name := parseParamName s
    let c ← lift (expectToken p 0x3a)
    let v ← if !validateParam method name then do
        let q ← lift (parseAndDiscardObject c.2)
        .ok (params, cache, q)
      else do
        let v ← parseParam c.2 cache name
        if params.length ≥ PARAM_MAX then failMessage v.2.2 .params
        else .ok (params ++ [⟨name, v.1⟩], v.2)
    let r ← lift (expectToken2 v.2.2 0x7d 0x2c)
    if r.1 = .symbol 0x7d then .ok (v.1, v.2.1, r.2)
    else do
      let t ← lift (expectToken2 r.2 TOKEN_STRING 0x7d)
      match t.1 with
      | .string s => parseParamsFrom method fuel s t.2 v.2.1 v.1
      | _ => .ok (v.1, v.2.1, t.2)

/-- Parse a parameter object. -/
def parseParams (method : Method) (p : Parser) (cache : List ParsedTrampoline) : Except MessageError (List Param × Rest) := do
  let r ← lift (expectToken p 0x7b)
  let t ← lift (expectToken2 r.2 0x7d TOKEN_STRING)
  match t.1 with
  | .string s => parseParamsFrom method (p.stream.length + 1) s t.2 cache []
  | _ => .ok ([], cache, t.2)

/-- Parse a message from the given stream, if it is not at its end. -/
def getMessage (stream : List UInt8) (lineno : Nat) (cache : List ParsedTrampoline) :
    Except MessageError (Option Message × Rest) := do
  let r ← lift (expectToken2 ⟨stream, lineno, none⟩ 0x7b EOF)
  if r.1 = .eof then .ok (none, cache, r.2)
  else do
    let p ← expectString r.2 (ascii "jsonrpc")
    let c ← lift (expectToken p 0x3a)
    let p ← expectString c.2 (ascii "2.0")
    let c ← lift (expectToken p 0x2c)
    let p ← expectString c.2 (ascii "method")
    let c ← lift (expectToken p 0x3a)
    let m ← lift (parseString c.2)
    let method := parseMethod m.1
    let c ← lift (expectToken m.2 0x2c)
    let p ← expectString c.2 (ascii "params")
    let c ← lift (expectToken p 0x3a)
    let params ← parseParams method c.2 cache
    let c ← lift (expectToken params.2.2 0x2c)
    let p ← expectString c.2 (ascii "id")
    let c ← lift (expectToken p 0x3a)
    let n ← lift (expectToken c.2 TOKEN_NUMBER)
    let e ← lift (expectToken n.2 0x7d)
    match n.1 with
    | .number i => .ok (some ⟨method, n.2.lineno, (i % 2 ^ 32).toNat, params.1⟩, params.2.1, e.2)
    | _ => failMessage n.2 (.parse (.unexpected "number" n.1.kind))

/-- The loop of `main` over the messages: a message starts with a parser of its own, at the line of the one before. -/
def readMessages : Nat → List UInt8 → Nat → List ParsedTrampoline → Except MessageError (List Message)
  | 0, _, lineno, _ => .error ⟨lineno, .parse .fuel⟩
  | fuel + 1, stream, lineno, cache => do
    let r ← getMessage stream lineno cache
    match r.1 with
    | none => .ok []
    | some m => (readMessages fuel r.2.2.stream m.lineno r.2.1).map (m :: ·)

end E9Patch.Rpc
