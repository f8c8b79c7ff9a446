import E9Patch.FrontendModel
import E9Patch.JumpTables

/-!
The messages of the frontend (`e9frontend.cpp`, `e9tool.cpp`, `e9metadata.cpp`). Each sender writes the header, its
parameters and the footer, which has the number of the message.
-/

namespace E9Tool
open Bytes Numerals

/-! ### Parts -/

/-- Send message header. -/
def sendMessageHeader (method : String) : List UInt8 :=
  ascii "\x7b\"jsonrpc\":\"2.0\",\"method\":\"" ++ ascii method ++ ascii "\",\"params\":\x7b"

/-- Send message footer. -/
def sendMessageFooter (id : Nat) : List UInt8 := ascii "\x7d,\"id\":" ++ numeral 10 id ++ ascii "\x7d\n"

/-- Send parameter header. -/
def sendParamHeader (name : String) : List UInt8 := ascii "\"" ++ ascii name ++ ascii "\":"

/-- Send parameter separator. -/
def sendSeparator (last : Bool) : List UInt8 := if last then [] else ascii ","

/-- Send definition header. -/
def sendDefinitionHeader (patch name : List UInt8) : List UInt8 :=
  ascii "\"$" ++ name ++ ascii "@" ++ patch ++ ascii "\":["

/-- Send definition footer. -/
def sendDefinitionFooter (last : Bool) : List UInt8 := ascii "]" ++ sendSeparator last

/-- Send integer data. -/
def sendIntegerData (size : Nat) (i : Int) : List UInt8 :=
  ascii "\x7b\"int" ++ numeral 10 size ++ ascii "\":" ++ sendInteger i ++ ascii "\x7d"

/-- Send asm string data. -/
def sendAsmStrData (instr : List UInt8) (newline : Bool) : List UInt8 :=
  ascii "\x7b\"string\":\"" ++ instr.flatMap escape ++ (if newline then escape 0x0a else []) ++ ascii "\"\x7d"

/-! ### Messages about the binary -/

/-- Send a "binary" message. -/
def sendBinaryMessage (VERSION mode filename : List UInt8) (id : Nat) : List UInt8 :=
  sendMessageHeader "binary" ++
    sendParamHeader "version" ++ sendString VERSION ++ sendSeparator false ++
    sendParamHeader "filename" ++ sendString filename ++ sendSeparator false ++
    sendParamHeader "mode" ++ sendString mode ++ sendSeparator true ++ sendMessageFooter id

/-- The loop of `sendOptionsMessage`. -/
def sendArguments : Bool → List (List UInt8) → List UInt8
  | _, [] => []
  | prev, arg :: argv => (if prev then ascii "," else []) ++ sendString arg ++ sendArguments true argv

/-- Send a "options" message. -/
def sendOptionsMessage (argv : List (List UInt8)) (id : Nat) : List UInt8 :=
  sendMessageHeader "options" ++
    sendParamHeader "argv" ++ ascii "[" ++ sendArguments false argv ++ ascii "]" ++ sendSeparator true ++
    sendMessageFooter id

/-- Send an "instruction" message. -/
def sendInstructionMessage (addr size offset : Int) (id : Nat) : List UInt8 :=
  sendMessageHeader "instruction" ++
    sendParamHeader "address" ++ (ascii "\"0x" ++ numeral 16 (E9Patch.toU64 addr) ++ ascii "\"") ++
    sendSeparator false ++
    sendParamHeader "length" ++ sendInteger size ++ sendSeparator false ++
    sendParamHeader "offset" ++ sendInteger offset ++ sendSeparator true ++ sendMessageFooter id

/-- Send an "emit" message. -/
def sendEmitMessage (filename format : List UInt8) (id : Nat) : List UInt8 :=
  sendMessageHeader "emit" ++
    sendParamHeader "filename" ++ sendString filename ++ sendSeparator false ++
    sendParamHeader "format" ++ sendString format ++ sendSeparator true ++ sendMessageFooter id

/-! ### Reservations -/

/-- Send a "reserve" message. -/
def sendReserveMessage (addr len : Int) (absolute : Bool) (id : Nat) : List UInt8 :=
  sendMessageHeader "reserve" ++
    sendParamHeader "address" ++ sendInteger addr ++ sendSeparator false ++
    (if absolute then sendParamHeader "absolute" ++ ascii "true" ++ sendSeparator false else []) ++
    sendParamHeader "length" ++ sendInteger len ++ sendSeparator true ++ sendMessageFooter id

/-- The characters of a protection. -/
def protectionText (r w x : Bool) : List UInt8 :=
  [if r then 0x72 else 0x2d, if w then 0x77 else 0x2d, if x then 0x78 else 0x2d]

/-- A parameter that is sent unless it is 0. -/
def sendNonZero (name : String) (i : Int) : List UInt8 :=
  if i ≠ 0 then sendParamHeader name ++ sendInteger i ++ sendSeparator false else []

/-- A parameter that is sent unless it is empty. -/
def sendNonEmpty (name : String) (bytes : List UInt8) : List UInt8 :=
  if bytes ≠ [] then sendParamHeader name ++ sendBytes bytes ++ sendSeparator false else []

/-- The parameters of a reservation with data. -/
structure ReserveData where
  addr : Int
  data : Option (List UInt8)
  len : Int
  r : Bool
  w : Bool
  x : Bool
  init : Int
  fini : Int
  mmap : Int
  absolute : Bool
  preinit : List UInt8
  postinit : List UInt8
  deriving DecidableEq, Repr

/-- Send a "reserve" message, with data or a length. -/
def sendReserveDataMessage (R : ReserveData) (id : Nat) : List UInt8 :=
  sendMessageHeader "reserve" ++
    sendParamHeader "address" ++ sendInteger R.addr ++ sendSeparator false ++
    sendParamHeader "protection" ++ (ascii "\"" ++ protectionText R.r R.w R.x ++ ascii "\"") ++ sendSeparator false ++
    sendNonZero "init" R.init ++ sendNonZero "fini" R.fini ++
    sendNonEmpty "preinit" R.preinit ++ sendNonEmpty "postinit" R.postinit ++
    sendNonZero "mmap" R.mmap ++
    (if R.absolute then sendParamHeader "absolute" ++ ascii "true" ++ sendSeparator false else []) ++
    (match R.data with
      | some data => sendParamHeader "bytes" ++ sendBytes data
      | none => sendParamHeader "length" ++ sendInteger R.len) ++
    sendSeparator true ++ sendMessageFooter id

/-- A parameter that is sent if it is there. -/
def sendIntegerParam (name : String) : Option Int → List UInt8
  | some i => sendParamHeader name ++ sendInteger i ++ sendSeparator false
  | none => []

def sendBytesParam (name : String) : Option (List UInt8) → List UInt8
  | some bytes => sendParamHeader name ++ sendBytes bytes ++ sendSeparator false
  | none => []

/-- A loadable segment of an ELF file that is embedded: its bytes in the file, and what is sent with it. -/
structure SegmentData where
  addr : Int
  bytes : List UInt8
  memsz : Nat
  r : Bool
  w : Bool
  x : Bool
  init : Option Int
  fini : Option Int
  mmap : Option Int
  absolute : Bool
  preinit : Option (List UInt8)
  postinit : Option (List UInt8)
  deriving DecidableEq, Repr

/-- The bytes of a segment from number `j` on; the separators go by its size in memory. -/
def sendSegmentBytes (memsz : Nat) : Nat → List UInt8 → List UInt8
  | _, [] => []
  | j, b :: bytes =>
    numeral 10 b.toNat ++ (if j + 1 < memsz then ascii "," else []) ++ sendSegmentBytes memsz (j + 1) bytes

/-- The message of a segment. -/
def sendSegmentMessage (S : SegmentData) (id : Nat) : List UInt8 :=
  sendMessageHeader "reserve" ++
    sendParamHeader "address" ++ sendInteger S.addr ++ sendSeparator false ++
    (if S.absolute then sendParamHeader "absolute" ++ ascii "true" ++ sendSeparator false else []) ++
    sendBytesParam "preinit" S.preinit ++ sendBytesParam "postinit" S.postinit ++
    sendIntegerParam "init" S.init ++ sendIntegerParam "fini" S.fini ++ sendIntegerParam "mmap" S.mmap ++
    sendParamHeader "protection" ++ sendString (protectionText S.r S.w S.x) ++ sendSeparator false ++
    sendParamHeader "bytes" ++ ascii "[" ++
    sendSegmentBytes S.memsz 0 (S.bytes ++ List.replicate (S.memsz - S.bytes.length) 0) ++ ascii "]" ++
    sendSeparator true ++ sendMessageFooter id

/-- What is embedded of an ELF file: its special routines, `INTPTR_MIN` for one that it does not have, the contents of
its sections with code to be run before and after them, and its segments. -/
structure ElfFile where
  base : Int
  data : List UInt8
  phdrs : List E9Patch.Phdr
  init : Int
  fini : Int
  mmap : Int
  preinit : Option (List UInt8)
  postinit : Option (List UInt8)
  deriving DecidableEq, Repr

/-- A routine is sent with the executable segment that it is in. -/
def routineParam (phdr_base phdr_end : Int) (flags : Nat) (addr : Int) : Option Int :=
  if flags &&& E9Patch.PF_X ≠ 0 ∧ addr ≥ phdr_base ∧ addr ≤ phdr_end then some addr else none

def segmentData (elf : ElfFile) (absolute first : Bool) (phdr : E9Patch.Phdr) : SegmentData :=
  let phdr_base := phdr.p_vaddr + elf.base
  let phdr_end := phdr_base + phdr.p_memsz
  { addr := phdr_base
    bytes := (elf.data.drop phdr.p_offset).take phdr.p_filesz
    memsz := phdr.p_memsz
    r := phdr.p_flags &&& E9Patch.PF_R ≠ 0
    w := phdr.p_flags &&& E9Patch.PF_W ≠ 0
    x := phdr.p_flags &&& E9Patch.PF_X ≠ 0
    init := routineParam phdr_base phdr_end phdr.p_flags elf.init
    fini := routineParam phdr_base phdr_end phdr.p_flags elf.fini
    mmap := routineParam phdr_base phdr_end phdr.p_flags elf.mmap
    absolute
    preinit := if first then elf.preinit else none
    postinit := if first then elf.postinit else none }

/-- The loop over the segments. -/
def elfSegments (elf : ElfFile) (absolute : Bool) : Bool → List E9Patch.Phdr → List SegmentData
  | _, [] => []
  | first, phdr :: phdrs =>
    if phdr.p_type ≠ E9Patch.PT_LOAD then elfSegments elf absolute first phdrs
    else segmentData elf absolute first phdr :: elfSegments elf absolute false phdrs

/-! ### Trampolines -/

/-- An item of a template, as the senders write them: a byte, an integer, a pc-relative offset of a label or of an
address, a string, and the name of a macro or a label. -/
inductive Item where
  | byte (b : UInt8)
  | int (size : Nat) (i : Int)
  | rel8 (label : List UInt8)
  | rel32 (label : List UInt8)
  | rel32Address (addr : Int)
  | asm (instr : List UInt8) (newline : Bool)
  | name (s : List UInt8)
  deriving DecidableEq, Repr

def sendItem : Item → List UInt8
  | .byte b => numeral 10 b.toNat
  | .int size i => sendIntegerData size i
  | .rel8 label => ascii "\x7b\"rel8\":" ++ sendString label ++ ascii "\x7d"
  | .rel32 label => ascii "\x7b\"rel32\":" ++ sendString label ++ ascii "\x7d"
  | .rel32Address addr => ascii "\x7b\"rel32\":" ++ signedNumeral addr ++ ascii "\x7d"
  | .asm instr newline => sendAsmStrData instr newline
  | .name s => sendString s

/-- Items with their separators. -/
def sendItems : Bool → List Item → List UInt8
  | _, [] => []
  | prev, item :: items => (if prev then ascii "," else []) ++ sendItem item ++ sendItems true items

/-- The comma behind the last item, which some senders write. -/
def sendComma (comma : Bool) (items : List Item) : List UInt8 := if comma ∧ items ≠ [] then ascii "," else []

/-- The message of a template. -/
def sendTemplate (name : List UInt8) (items : List Item) (comma : Bool) (id : Nat) : List UInt8 :=
  sendMessageHeader "trampoline" ++
    sendParamHeader "name" ++ sendString name ++ sendSeparator false ++
    sendParamHeader "template" ++ (ascii "[" ++ sendItems false items ++ sendComma comma items ++ ascii "]") ++
    sendSeparator true ++ sendMessageFooter id

def emptyItems : List Item := []

def trapItems : List Item := [.byte 0xcc]

/-- Save the registers below the red zone. -/
def saveItems : List Item :=
  [.byte 0x48, .byte 0x8d, .byte 0xa4, .byte 0x24, .int 32 (-0x4000), .byte 0x57, .byte 0x56, .byte 0x50, .byte 0x51,
    .byte 0x52, .byte 0x41, .byte 0x53]

def restoreItems : List Item :=
  [.byte 0x41, .byte 0x5b, .byte 0x5a, .byte 0x59, .byte 0x58, .byte 0x5e, .byte 0x5f, .byte 0x48, .byte 0x8d,
    .byte 0xa4, .byte 0x24, .int 32 0x4000]

/-- `kill(gettid(), sig)`. -/
def signalItems (sig : Int) : List Item :=
  saveItems ++ [.byte 0xb8, .int 32 186, .byte 0x0f, .byte 0x05, .byte 0x89, .byte 0xc7, .byte 0xb8, .int 32 62,
    .byte 0xbe, .int 32 sig, .byte 0x0f, .byte 0x05] ++ restoreItems

/-- `write(2, asm, len)`, for ELF binaries. -/
def printItems : List Item :=
  saveItems ++ [.byte 0x48, .byte 0x8d, .byte 0x35, .rel32 (ascii ".Lasm@print"), .byte 0xba,
    .name (ascii "$ASM_LEN@print"), .byte 0xbf, .int 32 0x02, .byte 0xb8, .int 32 0x01, .byte 0x0f, .byte 0x05] ++
    restoreItems

/-- `exit(status)`. -/
def exitItems (status : Int) : List Item :=
  [.byte 0xbf, .int 32 status, .byte 0xb8, .int 32 60, .byte 0x0f, .byte 0x05]

/-- Send an "empty" "trampoline" message. -/
def sendEmptyTrampolineMessage (id : Nat) : List UInt8 := sendTemplate (ascii "$empty") emptyItems false id

/-- Send a "trap" "trampoline" message. -/
def sendTrapTrampolineMessage (id : Nat) : List UInt8 := sendTemplate (ascii "$trap") trapItems false id

/-- Send a "signal" "trampoline" message, for ELF binaries. -/
def sendSignalTrampolineMessage (sig : Int) (id : Nat) : List UInt8 :=
  sendTemplate (ascii "$signal_" ++ signedNumeral sig) (signalItems sig) false id

/-- Send a "print" "trampoline" message, for ELF binaries. -/
def sendPrintTrampolineMessage (id : Nat) : List UInt8 := sendTemplate (ascii "$print") printItems false id

/-- Send an "exit" "trampoline" message, for ELF binaries. -/
def sendExitTrampolineMessage (status : Int) (id : Nat) : List UInt8 :=
  sendTemplate (ascii "$exit_" ++ signedNumeral status) (exitItems status) false id

/-- The composite template of a matching: the strings that are sent for its patches, each with a comma. -/
def sendCompositeMessage (tid : Nat) (strings : List (List UInt8)) (id : Nat) : List UInt8 :=
  sendMessageHeader "trampoline" ++
    sendParamHeader "name" ++ (ascii "\"$tmp_" ++ numeral 10 tid ++ ascii "\"") ++ sendSeparator false ++
    sendParamHeader "template" ++
    (ascii "[" ++ (strings.flatMap fun s => sendString s ++ sendSeparator false) ++ ascii "]") ++
    sendSeparator true ++ sendMessageFooter id

/-! ### Patches -/

/-- A definition of a macro `$name@patch`, with or without a comma behind its last item. -/
structure Definition where
  patch : List UInt8
  name : List UInt8
  items : List Item
  comma : Bool
  deriving DecidableEq, Repr

def sendDefinition (d : Definition) : List UInt8 :=
  sendDefinitionHeader d.patch d.name ++ (sendItems false d.items ++ sendComma d.comma d.items) ++
    sendDefinitionFooter false

/-- Send the "print" trampoline metadata, of the text of an instruction. -/
def printMetadata (instr : List UInt8) : List Definition :=
  [⟨ascii "print", ascii "DATA", [.name (ascii ".Lasm@print"), .asm instr true], false⟩,
    ⟨ascii "print", ascii "ASM_LEN", [.int 32 (instr.length + 1)], false⟩]

/-- Send the "patch" message of the instruction at `offset`, whose template is number `tid`. -/
def sendPatchMessage (tid : Nat) (metadata : List Definition) (offset : Int) (id : Nat) : List UInt8 :=
  sendMessageHeader "patch" ++
    sendParamHeader "trampoline" ++ (ascii "\"$tmp_" ++ numeral 10 tid ++ ascii "\"") ++ ascii "," ++
    (if metadata ≠ [] then
      sendParamHeader "metadata" ++ ascii "\x7b" ++ metadata.flatMap sendDefinition ++ ascii "\x7d" ++
        sendSeparator false
    else []) ++
    sendParamHeader "offset" ++ sendInteger offset ++ sendSeparator true ++ sendMessageFooter id

/-! ### The stream -/

/-- What the frontend sends, but for what a plugin writes itself. The templates that are made for a call, and those for
PE binaries, are given by their items. -/
inductive Request where
  | binary (VERSION mode filename : List UInt8)
  | options (argv : List (List UInt8))
  | instruction (addr size offset : Int)
  | reserve (addr len : Int) (absolute : Bool)
  | reserveData (R : ReserveData)
  | segment (S : SegmentData)
  | emptyTrampoline
  | trapTrampoline
  | signalTrampoline (sig : Int)
  | printTrampoline
  | exitTrampoline (status : Int)
  | template (name : List UInt8) (items : List Item) (comma : Bool)
  | composite (tid : Nat) (strings : List (List UInt8))
  | patch (tid : Nat) (metadata : List Definition) (offset : Int)
  | emit (filename format : List UInt8)
  deriving DecidableEq, Repr

def Request.send : Request → Nat → List UInt8
  | .binary VERSION mode filename => sendBinaryMessage VERSION mode filename
  | .options argv => sendOptionsMessage argv
  | .instruction addr size offset => sendInstructionMessage addr size offset
  | .reserve addr len absolute => sendReserveMessage addr len absolute
  | .reserveData R => sendReserveDataMessage R
  | .segment S => sendSegmentMessage S
  | .emptyTrampoline => sendEmptyTrampolineMessage
  | .trapTrampoline => sendTrapTrampolineMessage
  | .signalTrampoline sig => sendSignalTrampolineMessage sig
  | .printTrampoline => sendPrintTrampolineMessage
  | .exitTrampoline status => sendExitTrampolineMessage status
  | .template name items comma => sendTemplate name items comma
  | .composite tid strings => sendCompositeMessage tid strings
  | .patch tid metadata offset => sendPatchMessage tid metadata offset
  | .emit filename format => sendEmitMessage filename format

/-- Send an ELF file, unless it was sent before. -/
def sendELFFileMessage (elf : ElfFile) (absolute : Bool) : List Request :=
  (elfSegments elf absolute true elf.phdrs).map .segment

/-- What is written to the pipe, from message number `next_id` on. -/
def sendAll : Nat → List Request → List UInt8
  | _, [] => []
  | next_id, r :: rs => r.send next_id ++ sendAll (next_id + 1) rs

end E9Tool
