import E9Patch.RpcParams

/-!
The kinds of parameters. For each kind that the frontend writes, its text is read as its value: strings, integers,
addresses, modes and formats, arguments, protections, bytes, templates and the macros of a patch.
-/

namespace E9Patch.Rpc
open Bytes Numerals Fallible
open E9Tool

/-! ### Kinds of parameters -/

def constant (v : ParamValue) : List ParsedTrampoline → ParamValue × List ParsedTrampoline := fun cache => (v, cache)

def stringField (name : String) (s : List UInt8) : Sent := ⟨name, sendString s, constant (.string s)⟩

def integerField (name : String) (i : Int) : Sent := ⟨name, sendInteger i, constant (.integer i)⟩

def addressField (addr : Int) : Sent :=
  ⟨"address", ascii "\"0x" ++ numeral 16 (toU64 addr) ++ ascii "\"", constant (.integer addr)⟩

def modeField (mode : List UInt8) : Sent :=
  ⟨"mode", sendString mode, constant (.mode ((lookup modes mode).getD .ELF_EXE))⟩

def formatField (format : List UInt8) : Sent :=
  ⟨"format", sendString format, constant (.format ((lookup formats format).getD .BINARY))⟩

def argvField (argv : List (List UInt8)) : Sent :=
  ⟨"argv", ascii "[" ++ sendArguments false argv ++ ascii "]", constant (.strings (ascii "<option>" :: argv))⟩

def absoluteField : Sent := ⟨"absolute", ascii "true", constant (.boolean true)⟩

def protectionField (r w x : Bool) : Sent :=
  ⟨"protection", ascii "\"" ++ protectionText r w x ++ ascii "\"", constant (.protection
    ((if r then PROT_READ else 0) ||| (if w then PROT_WRITE else 0) ||| (if x then PROT_EXEC else 0)))⟩

def bytesField (name : String) (bytes : List UInt8) : Sent :=
  ⟨name, sendBytes bytes, constant (.trampoline (bytesTrampoline bytes))⟩

/-- A template, as the cache has it. -/
def templateValue (entries : List ParsedEntry) (cache : List ParsedTrampoline) : ParamValue × List ParsedTrampoline :=
  let r := shareTemplate cache entries
  (.trampoline r.1, r.2)

def templateField (items : List Item) (comma : Bool) : Sent :=
  ⟨"template", itemsText comma items, templateValue (templateEntries items [])⟩

/-- The name of the template of a patch. -/
def tmpName (tid : Nat) : List UInt8 := ascii "$tmp_" ++ numeral 10 tid

def trampolineField (tid : Nat) : Sent :=
  ⟨"trampoline", ascii "\"" ++ tmpName tid ++ ascii "\"", templateValue [some .DEBUG, some (makeMacroEntry (tmpName tid))]⟩

/-- The name of the macro of a definition. -/
def macroName (d : Definition) : List UInt8 := ascii "$" ++ d.name ++ ascii "@" ++ d.patch

/-- The macros of a patch, in the order of their names. -/
def receiveMetadata : List ParsedTrampoline → List (List Nat × ParsedTrampoline) → List Definition →
    List (List Nat × ParsedTrampoline) × List ParsedTrampoline
  | cache, entries, [] => (entries, cache)
  | cache, entries, d :: ds =>
    let r := shareTemplate cache (templateEntries d.items [])
    receiveMetadata r.2 (OrderedMap.insert entries ((macroName d).map UInt8.toNat) r.1) ds

def metadataField (metadata : List Definition) : Sent :=
  ⟨"metadata", ascii "\x7b" ++ metadata.flatMap sendDefinition ++ ascii "\x7d", fun cache =>
    let r := receiveMetadata cache [] metadata
    (.metadata r.1, r.2)⟩

/-! ### What is sent as it is -/

/-- The characters that are sent as they are and may be in a string. -/
def PlainByte (c : UInt8) : Prop := isPlain c = true ∧ c ≠ EOF ∧ c ≠ 0

instance (c : UInt8) : Decidable (PlainByte c) := inferInstanceAs (Decidable (_ ∧ _))

theorem protocol_plain : (∀ e ∈ paramNames, plainName e.1 = true ∧ parseParamName (ascii e.1) = e.2) ∧
    (∀ e ∈ methodNames, plainName e.1 = true ∧ parseMethod (ascii e.1) = e.2) ∧
    (∀ e ∈ modes, Sendable (ascii e.1)) ∧ (∀ e ∈ formats, Sendable (ascii e.1)) ∧
    (∀ c : UInt8, isDigit 10 c = true ∨ isDigit 16 c = true → PlainByte c) ∧
    (∀ c ∈ ascii "0x", PlainByte c) ∧ (∀ c ∈ ascii "$tmp_", PlainByte c) ∧ PlainByte 0x2d := by
  decide +kernel

/-- The parameters are sent as they are, and known by their names. -/
theorem paramName_plain {name : String} {param : ParamName} (h : (name, param) ∈ paramNames) :
    plainName name = true ∧ parseParamName (ascii name) = param :=
  protocol_plain.1 _ h

/-- The methods are sent as they are, and known by their names. -/
theorem methodName_plain {e : String × Method} (h : e ∈ methodNames) :
    plainName e.1 = true ∧ parseMethod (ascii e.1) = e.2 :=
  protocol_plain.2.1 _ h

theorem digit_plain (c : UInt8) (h : isDigit 10 c = true ∨ isDigit 16 c = true) : PlainByte c :=
  protocol_plain.2.2.2.2.1 c h

/-- The characters in front of a number. -/
theorem mark_plain : (∀ c ∈ ascii "0x", PlainByte c) ∧ (∀ c ∈ ascii "$tmp_", PlainByte c) ∧ PlainByte 0x2d :=
  protocol_plain.2.2.2.2.2

/-! ### How values are read -/

section
variable {p : Parser} {cache : List ParsedTrampoline} {param : ParamName}

theorem parseParam_string (h : param ∈ [.FILENAME, .NAME, .VERSION]) : parseParam p cache param =
    (lift (parseString p) >>= fun r => .ok (.string r.1, cache, r.2)) := by
  simp only [List.mem_cons, List.not_mem_nil, or_false] at h
  rcases h with rfl | rfl | rfl <;> rfl

theorem parseParam_integer (h : param ∈ [.ADDRESS, .OFFSET, .LENGTH, .INIT, .FINI, .MMAP]) : parseParam p cache param =
    (lift (parseInteger p) >>= fun r => .ok (.integer r.1, cache, r.2)) := by
  simp only [List.mem_cons, List.not_mem_nil, or_false] at h
  rcases h with rfl | rfl | rfl | rfl | rfl | rfl <;> rfl

theorem parseParam_bytes (h : param ∈ [.PREINIT, .POSTINIT, .BYTES]) : parseParam p cache param =
    (lift (parseBytes p) >>= fun r => .ok (.trampoline (bytesTrampoline r.1), cache, r.2)) := by
  simp only [List.mem_cons, List.not_mem_nil, or_false] at h
  rcases h with rfl | rfl | rfl <;> rfl

end

variable {P : List ParsedTrampoline → Prop}

section
variable {method : Method} {name : String} {param : ParamName}

/-- A parameter of the protocol. -/
theorem Sent.reads_named {f : Sent} (hmem : (f.name, param) ∈ paramNames) (hvalid : validateParam method param = true)
    (h : ∀ (rest : List UInt8) (lineno : Nat) (cache : List ParsedTrampoline), P cache → EndsNumber rest →
      parseParam (.at (f.text ++ rest) lineno) cache param =
        .ok ((f.value cache).1, (f.value cache).2, .at rest lineno))
    (hkeeps : ∀ cache, P cache → P (f.value cache).2) : f.Reads P method := by
  obtain ⟨hplain, hparam⟩ := paramName_plain hmem
  have hf : f.param = param := hparam
  refine ⟨hplain, by rwa [hf], ?_, hkeeps⟩
  rw [hf]
  exact h

/-- A parameter whose value does not depend on the cache. -/
theorem Sent.reads_constant {text : List UInt8} {v : ParamValue} (hmem : (name, param) ∈ paramNames)
    (hvalid : validateParam method param = true)
    (h : ∀ (rest : List UInt8) (lineno : Nat) (cache : List ParsedTrampoline), EndsNumber rest →
      parseParam (.at (text ++ rest) lineno) cache param = .ok (v, cache, .at rest lineno)) :
    Sent.Reads P method ⟨name, text, constant v⟩ :=
  Sent.reads_named hmem hvalid (fun rest lineno cache _ => h rest lineno cache) fun _ hcache => hcache

theorem stringField_reads (param : ParamName) {s : List UInt8} (hs : Sendable s) (hmem : (name, param) ∈ paramNames)
    (hparam : param ∈ [.FILENAME, .NAME, .VERSION]) (hvalid : validateParam method param = true) :
    (stringField name s).Reads P method := by
  apply Sent.reads_constant hmem hvalid
  intro rest lineno cache _
  rw [parseParam_string hparam, parseString_string hs]
  rfl

theorem integer_reads {text : List UInt8} {i : Int}
    (htext : ∀ (rest : List UInt8) (lineno : Nat), EndsNumber rest →
      parseInteger (.at (text ++ rest) lineno) = .ok (i, .at rest lineno)) (hmem : (name, param) ∈ paramNames)
    (hparam : param ∈ [.ADDRESS, .OFFSET, .LENGTH, .INIT, .FINI, .MMAP]) (hvalid : validateParam method param = true) :
    Sent.Reads P method ⟨name, text, constant (.integer i)⟩ := by
  apply Sent.reads_constant hmem hvalid
  intro rest lineno cache hrest
  rw [parseParam_integer hparam, htext rest lineno hrest]
  rfl

theorem integerField_reads (param : ParamName) {i : Int} (hi : IsInt64 i) (hmem : (name, param) ∈ paramNames)
    (hparam : param ∈ [.ADDRESS, .OFFSET, .LENGTH, .INIT, .FINI, .MMAP]) (hvalid : validateParam method param = true) :
    (integerField name i).Reads P method :=
  integer_reads (fun _ lineno hrest => parseInteger_sendInteger hi hrest lineno) hmem hparam hvalid

theorem bytesField_reads (param : ParamName) (bytes : List UInt8) (hmem : (name, param) ∈ paramNames)
    (hparam : param ∈ [.PREINIT, .POSTINIT, .BYTES]) (hvalid : validateParam method param = true) :
    (bytesField name bytes).Reads P method := by
  apply Sent.reads_constant hmem hvalid
  intro rest lineno cache _
  rw [parseParam_bytes hparam, parseBytes_sendBytes bytes rest lineno]
  rfl

end

theorem plain_sendable {s : List UInt8} (h : ∀ c ∈ s, PlainByte c) (hlen : s.length < STRING_MAX) :
    Sendable s ∧ s.flatMap escape = s :=
  ⟨⟨fun h0 => (h 0 h0).2.2 rfl, fun hff => (h EOF hff).2.1 rfl, hlen⟩, flatMap_escape fun c hc => (h c hc).1⟩

theorem signed64_toU64 {i : Int} (hi : IsInt64 i) : signed64 (toU64 i) = i := by
  simp only [IsInt64, INTPTR_MIN, INTPTR_MAX] at hi
  unfold signed64 toU64
  omega

/-- An address is sent as its 64 bits, also a negative one. -/
theorem addressField_reads {method : Method} {addr : Int} (ha : IsInt64 addr)
    (hvalid : validateParam method .ADDRESS = true) : (addressField addr).Reads P method := by
  have hlt : toU64 addr < 2 ^ 64 := by
    unfold toU64
    omega
  have hdigits : ∀ c ∈ ascii "0x" ++ numeral 16 (toU64 addr), PlainByte c := by
    intro c hc
    rcases List.mem_append.mp hc with hc | hc
    · exact mark_plain.1 c hc
    · exact digit_plain _ (.inr (numeral_digits (by decide) (by decide) _ c hc))
  have hlen : (numeral 16 (toU64 addr)).length ≤ 16 := numeral_length (by decide) (by decide) hlt
  have htwo : (ascii "0x").length = 2 := rfl
  obtain ⟨hs, hescape⟩ := plain_sendable hdigits (by
    simp only [List.length_append, STRING_MAX]
    omega)
  have htext : ascii "\"0x" ++ numeral 16 (toU64 addr) ++ ascii "\"" =
      sendString (ascii "0x" ++ numeral 16 (toU64 addr)) := by
    unfold sendString
    rw [hescape]
    rfl
  have hname : ("address", ParamName.ADDRESS) ∈ paramNames := by simp [paramNames]
  refine integer_reads (fun rest lineno _ => ?_) hname (by decide) hvalid
  have htoken : expectToken2 (.at (sendString (ascii "0x" ++ numeral 16 (toU64 addr)) ++ rest) lineno) TOKEN_NUMBER
      TOKEN_STRING = .ok (.string (ascii "0x" ++ numeral 16 (toU64 addr)), .at rest lineno) :=
    expectTokens_ok (getToken_string hs rest lineno) (List.mem_cons_of_mem _ (List.mem_singleton_self _))
  have hnumber : stringToNumber (.at rest lineno) (ascii "0x" ++ numeral 16 (toU64 addr)) = .ok addr := by
    have hhead : ¬(ascii "0x" ++ numeral 16 (toU64 addr)).head? = some 0x2d := by
      show ¬some (0x30 : UInt8) = some 0x2d
      decide
    have htake : (ascii "0x" ++ numeral 16 (toU64 addr)).take 2 = ascii "0x" := rfl
    unfold stringToNumber
    simp only [hhead, if_false, htake, if_true, strtoull_hex hlt]
    rw [if_neg (by simp)]
    rw [signed64_toU64 ha]
  rw [htext]
  unfold parseInteger
  simp only [htoken, ok_bind, hnumber]

/-- The strings of a table arrive. -/
theorem lookup_ascii {α : Type} {names : List (String × α)} {s : List UInt8} (h : (lookup names s).isSome = true) :
    ∃ e ∈ names, ascii e.1 = s := by
  unfold lookup at h
  rw [Option.isSome_map, List.find?_isSome] at h
  obtain ⟨e, he, heq⟩ := h
  exact ⟨e, he, of_decide_eq_true heq⟩

theorem modeField_reads {mode : List UInt8} (h : (lookup modes mode).isSome = true) : (modeField mode).Reads P .BINARY := by
  have hs : Sendable mode := by
    obtain ⟨e, he, rfl⟩ := lookup_ascii h
    exact protocol_plain.2.2.1 e he
  obtain ⟨m, hm⟩ := Option.isSome_iff_exists.mp h
  have hname : ("mode", ParamName.MODE) ∈ paramNames := by simp [paramNames]
  apply Sent.reads_constant hname rfl
  intro rest lineno cache _
  show (lift (parseString (.at (sendString mode ++ rest) lineno)) >>= _) =
    .ok (ParamValue.mode ((lookup modes mode).getD .ELF_EXE), cache, Parser.at rest lineno)
  simp only [parseString_string hs, lift_ok, ok_bind, hm]
  rfl

theorem formatField_reads {format : List UInt8} (h : (lookup formats format).isSome = true) :
    (formatField format).Reads P .EMIT := by
  have hs : Sendable format := by
    obtain ⟨e, he, rfl⟩ := lookup_ascii h
    exact protocol_plain.2.2.2.1 e he
  obtain ⟨m, hm⟩ := Option.isSome_iff_exists.mp h
  have hname : ("format", ParamName.FORMAT) ∈ paramNames := by simp [paramNames]
  apply Sent.reads_constant hname rfl
  intro rest lineno cache _
  show (lift (parseString (.at (sendString format ++ rest) lineno)) >>= _) =
    .ok (ParamValue.format ((lookup formats format).getD .BINARY), cache, Parser.at rest lineno)
  simp only [parseString_string hs, lift_ok, ok_bind, hm]
  rfl

theorem absoluteField_reads : absoluteField.Reads P .RESERVE := by
  have hname : ("absolute", ParamName.ABSOLUTE) ∈ paramNames := by simp [paramNames]
  apply Sent.reads_constant hname rfl
  intro rest lineno cache _
  have htoken : expectToken (.at (ascii "true" ++ rest) lineno) TOKEN_BOOL = .ok (.bool true, .at rest lineno) := by
    refine expectTokens_ok (getToken_at (by decide) ?_) (List.mem_singleton_self _)
    have hword : readWord 0x74 [0x72, 0x75, 0x65] (0x72 :: 0x75 :: 0x65 :: rest) lineno = .ok rest := by
      simp [readWord]
    rw [readToken, if_neg (by decide), if_neg (by decide), if_pos (by decide)]
    show (readWord 0x74 [0x72, 0x75, 0x65] (0x72 :: 0x75 :: 0x65 :: rest) lineno).map _ = _
    rw [hword]
    rfl
  show (lift (expectToken (.at (ascii "true" ++ rest) lineno) TOKEN_BOOL) >>= _) = _
  simp only [htoken, lift_ok, ok_bind]
  rfl

theorem protectionField_reads (r w x : Bool) : (protectionField r w x).Reads P .RESERVE := by
  have hsend : ∀ r w x, Sendable (protectionText r w x) ∧ (protectionText r w x).flatMap escape = protectionText r w x := by
    decide
  have hread : ∀ r w x : Bool, byteAt (protectionText r w x) 0 = (if r then 0x72 else 0x2d) ∧
      byteAt (protectionText r w x) 1 = (if w then 0x77 else 0x2d) ∧
      byteAt (protectionText r w x) 2 = (if x then 0x78 else 0x2d) ∧ byteAt (protectionText r w x) 3 = 0 := by
    decide
  obtain ⟨hs, hescape⟩ := hsend r w x
  obtain ⟨h0, h1, h2, h3⟩ := hread r w x
  have hcode : ∀ (p : Parser) (i : Nat) (c : UInt8) (prot : Nat) (b : Bool), c ≠ 0x2d →
      byteAt (protectionText r w x) i = (if b then c else 0x2d) →
        parseProtection p (protectionText r w x) i c prot = .ok (if b then prot else 0) := by
    intro p i c prot b hc hi
    unfold parseProtection
    rw [hi]
    cases b with
    | true => simp only [if_true]
    | false =>
        simp only [Bool.false_eq_true, if_false, if_true]
        rw [if_neg hc.symm]
  have hname : ("protection", ParamName.PROTECTION) ∈ paramNames := by simp [paramNames]
  apply Sent.reads_constant hname rfl
  intro rest lineno cache _
  have htext : ascii "\"" ++ protectionText r w x ++ ascii "\"" = sendString (protectionText r w x) := by
    unfold sendString
    rw [hescape]
    rfl
  show (lift (parseString (.at (ascii "\"" ++ protectionText r w x ++ ascii "\"" ++ rest) lineno)) >>= _) = _
  rw [htext]
  simp only [parseString_string hs, lift_ok, ok_bind, hcode _ 0 0x72 PROT_READ r (by decide) h0,
    hcode _ 1 0x77 PROT_WRITE w (by decide) h1, hcode _ 2 0x78 PROT_EXEC x (by decide) h2]
  rw [if_neg (by rw [h3]; decide)]

/-! ### Arguments -/

theorem sendArguments_length (prev : Bool) (argv : List (List UInt8)) : argv.length ≤ (sendArguments prev argv).length := by
  induction argv generalizing prev with
  | nil => exact Nat.zero_le _
  | cons arg argv ih =>
      have := ih true
      simp only [sendArguments, sendString, List.length_append, List.length_cons]
      omega

theorem parseStringsFrom_close (fuel : Nat) (p : Parser) (strings : List (List UInt8)) :
    parseStringsFrom (fuel + 1) (.symbol 0x5d) p strings = .ok (strings, p) := by
  rw [parseStringsFrom.eq_def]
  simp only [if_true]

/-- The loop over the arguments, with the first of them read. -/
theorem parseStringsFrom_arguments {arg : List UInt8} {argv : List (List UInt8)} (hargv : ∀ a ∈ argv, Sendable a)
    {fuel : Nat} (hfuel : argv.length + 2 ≤ fuel) (rest : List UInt8) (lineno : Nat) (strings : List (List UInt8)) :
    parseStringsFrom fuel (.string arg) (.at (sendArguments true argv ++ 0x5d :: rest) lineno) strings =
      .ok (strings ++ arg :: argv, .at rest lineno) := by
  induction argv generalizing arg fuel strings with
  | nil =>
      obtain ⟨fuel, rfl⟩ : ∃ n, fuel = n + 2 := ⟨fuel - 2, by simp only [List.length_nil] at hfuel; omega⟩
      rw [parseStringsFrom, if_neg (by simp)]
      simp only
      rw [show sendArguments true [] ++ 0x5d :: rest = 0x5d :: rest from rfl,
        expectToken2_second (c := 0x5d) (by decide) 0x2c rest lineno]
      simp only [ok_bind]
      rw [if_neg (by decide), parseStringsFrom_close]
  | cons next argv ih =>
      obtain ⟨fuel, rfl⟩ : ∃ n, fuel = n + 1 := ⟨fuel - 1, by simp only [List.length_cons] at hfuel; omega⟩
      have htext : sendArguments true (next :: argv) ++ 0x5d :: rest =
          0x2c :: (sendString next ++ (sendArguments true argv ++ 0x5d :: rest)) := by
        simp [sendArguments, ascii]
      rw [parseStringsFrom, if_neg (by simp)]
      simp only
      rw [htext, expectToken2_first (c := 0x2c) (by decide) 0x5d _ lineno]
      simp only [ok_bind, if_true, getToken_string (hargv next List.mem_cons_self)]
      rw [ih (fun a ha => hargv a (List.mem_cons_of_mem _ ha)) (by simp only [List.length_cons] at hfuel; omega)]
      simp

theorem argvField_reads {argv : List (List UInt8)} (hargv : ∀ a ∈ argv, Sendable a) :
    (argvField argv).Reads P .OPTIONS := by
  have hname : ("argv", ParamName.ARGV) ∈ paramNames := by simp [paramNames]
  apply Sent.reads_constant hname rfl
  intro rest lineno cache _
  have hlen := sendArguments_length false argv
  have htext : ascii "[" ++ sendArguments false argv ++ ascii "]" ++ rest =
      0x5b :: (sendArguments false argv ++ 0x5d :: rest) := by
    simp [ascii]
  have hstrings : parseStrings (.at (0x5b :: (sendArguments false argv ++ 0x5d :: rest)) lineno) (ascii "<option>") =
      .ok (ascii "<option>" :: argv, .at rest lineno) := by
    unfold parseStrings
    simp only [expectToken_symbol (c := 0x5b) (by decide), ok_bind]
    cases argv with
    | nil =>
        rw [show sendArguments false [] ++ 0x5d :: rest = 0x5d :: rest from rfl,
          expectToken2_first (c := 0x5d) (by decide) TOKEN_STRING rest lineno]
        simp only [ok_bind]
        rw [parseStringsFrom_close]
    | cons arg argv =>
        have hcons : sendArguments false (arg :: argv) ++ 0x5d :: rest =
            sendString arg ++ (sendArguments true argv ++ 0x5d :: rest) := by
          simp [sendArguments]
        have hfuel : argv.length + 2 ≤
            (Parser.at (0x5b :: (sendArguments false (arg :: argv) ++ 0x5d :: rest)) lineno).stream.length + 1 := by
          simp only [Parser.at, List.length_cons, List.length_append] at hlen ⊢
          omega
        generalize hn : (Parser.at (0x5b :: (sendArguments false (arg :: argv) ++ 0x5d :: rest)) lineno).stream.length + 1 = n
          at hfuel
        rw [hcons, expectToken2_string (hargv arg List.mem_cons_self)]
        simp only [ok_bind]
        exact parseStringsFrom_arguments (fun a ha => hargv a (List.mem_cons_of_mem _ ha)) hfuel rest lineno _
  show (lift (parseStrings (.at (ascii "[" ++ sendArguments false argv ++ ascii "]" ++ rest) lineno) _) >>= _) = _
  rw [htext]
  simp only [hstrings, lift_ok, ok_bind]

/-! ### Templates and metadata -/

theorem templateField_reads {items : List Item} (hitems : ∀ i ∈ items, ItemSendable i) (comma : Bool) :
    (templateField items comma).Reads CacheNamed .TRAMPOLINE := by
  have hname : ("template", ParamName.TEMPLATE) ∈ paramNames := by simp [paramNames]
  have hnamed : none ∉ templateEntries items [] := templateEntries_named items List.not_mem_nil
  apply Sent.reads_named hname rfl
  · intro rest lineno cache hcache _
    have htemplate := parseTemplate_items hitems comma rest lineno false cache
    rw [if_neg Bool.false_ne_true, templateResult_named hcache hnamed] at htemplate
    show (lift (parseTemplate (.at (itemsText comma items ++ rest) lineno) false cache) >>= _) = _
    simp only [htemplate, lift_ok, ok_bind]
    rfl
  · exact fun cache hcache => hcache.share hnamed

theorem tmpName_plain (tid : Nat) : ∀ c ∈ tmpName tid, PlainByte c := by
  intro c hc
  rcases List.mem_append.mp hc with hc | hc
  · exact mark_plain.2.1 c hc
  · exact digit_plain _ (.inl (numeral_digits (by decide) (by decide) _ c hc))

theorem tmpName_escape (tid : Nat) : (tmpName tid).flatMap escape = tmpName tid :=
  flatMap_escape fun c hc => (tmpName_plain tid c hc).1

theorem tmpName_sendable {tid : Nat} (ht : tid < 2 ^ 64) :
    Sendable (tmpName tid) ∧ (tmpName tid).flatMap escape = tmpName tid := by
  have hlen : (numeral 10 tid).length ≤ 20 := numeral_length (by decide) (by decide) (by omega)
  have hfive : (ascii "$tmp_").length = 5 := rfl
  apply plain_sendable (tmpName_plain tid)
  simp only [tmpName, List.length_append, STRING_MAX]
  omega

theorem trampolineField_reads {tid : Nat} (ht : tid < 2 ^ 64) : (trampolineField tid).Reads CacheNamed .PATCH := by
  have hname : ("trampoline", ParamName.TRAMPOLINE) ∈ paramNames := by simp [paramNames]
  have hnamed : none ∉ [some .DEBUG, some (makeMacroEntry (tmpName tid))] := by simp
  apply Sent.reads_named hname rfl
  · intro rest lineno cache hcache _
    obtain ⟨hs, hescape⟩ := tmpName_sendable ht
    have htext : ascii "\"" ++ tmpName tid ++ ascii "\"" = sendString (tmpName tid) := by
      unfold sendString
      rw [hescape]
      rfl
    have htemplate := parseTemplate_name hs rfl rest lineno cache
    rw [templateResult_named hcache hnamed] at htemplate
    show (lift (parseTemplate (.at (ascii "\"" ++ tmpName tid ++ ascii "\"" ++ rest) lineno) true cache) >>= _) = _
    rw [htext]
    simp only [htemplate, lift_ok, ok_bind]
    rfl
  · exact fun cache hcache => hcache.share hnamed

/-- The definitions that arrive: their names are sent as they are. -/
structure DefinitionSendable (d : Definition) : Prop where
  name : Sendable (macroName d)
  plain : (macroName d).flatMap escape = macroName d
  items : ∀ i ∈ d.items, ItemSendable i

theorem sendDefinition_text {d : Definition} (hd : DefinitionSendable d) (rest : List UInt8) : sendDefinition d ++ rest =
    sendString (macroName d) ++ 0x3a :: (itemsText d.comma d.items ++ 0x2c :: rest) := by
  unfold sendString itemsText
  rw [hd.plain]
  simp [sendDefinition, sendDefinitionHeader, sendDefinitionFooter, sendSeparator, macroName, ascii]

theorem macroName_head (d : Definition) : (macroName d).head? = some 0x24 := rfl

theorem parseMetadataFrom_close (fuel : Nat) (p : Parser) (cache : List ParsedTrampoline)
    (entries : List (List Nat × ParsedTrampoline)) :
    parseMetadataFrom (fuel + 1) (.symbol 0x7d) p cache entries = .ok (entries, cache, p) := by
  rw [parseMetadataFrom.eq_def]
  simp only [if_true]

/-- The names of the macros so far. -/
def Fresh (entries : List (List Nat × ParsedTrampoline)) (metadata : List Definition) : Prop :=
  OrderedMap.Sorted entries ∧ metadata.Pairwise (fun d d' => macroName d ≠ macroName d') ∧
    ∀ d ∈ metadata, OrderedMap.find entries ((macroName d).map UInt8.toNat) = none

theorem Fresh.insert {entries : List (List Nat × ParsedTrampoline)} {d : Definition} {metadata : List Definition}
    (h : Fresh entries (d :: metadata)) (T : ParsedTrampoline) :
    Fresh (OrderedMap.insert entries ((macroName d).map UInt8.toNat) T) metadata := by
  obtain ⟨hsorted, hpair, hfind⟩ := h
  rw [List.pairwise_cons] at hpair
  refine ⟨OrderedMap.sorted_insert hsorted _ _, hpair.2, fun e he => ?_⟩
  rw [OrderedMap.find_insert hsorted]
  have hne : (macroName e).map UInt8.toNat ≠ (macroName d).map UInt8.toNat := by
    intro heq
    have hinj : Function.Injective (List.map UInt8.toNat) :=
      List.map_injective_iff.mpr fun a b hab => UInt8.toNat_inj.mp hab
    exact hpair.1 e he (hinj heq).symm
  rw [if_neg hne]
  exact hfind e (List.mem_cons_of_mem _ he)

/-- The template of a definition, with a cache without null labels. -/
theorem parseTemplate_definition {d : Definition} (hd : DefinitionSendable d) {cache : List ParsedTrampoline}
    (hcache : CacheNamed cache) (rest : List UInt8) (lineno : Nat) :
    parseTemplate (.at (itemsText d.comma d.items ++ rest) lineno) false cache =
      .ok (shareTemplate cache (templateEntries d.items []), .at rest lineno) := by
  have htemplate := parseTemplate_items hd.items d.comma rest lineno false cache
  rwa [if_neg Bool.false_ne_true, templateResult_named hcache (templateEntries_named d.items List.not_mem_nil)]
    at htemplate

/-- The loop over the definitions, with the name of the first of them read. -/
theorem parseMetadataFrom_definitions {d : Definition} {metadata : List Definition} (hd : DefinitionSendable d)
    (hmetadata : ∀ e ∈ metadata, DefinitionSendable e) {entries : List (List Nat × ParsedTrampoline)}
    (hfresh : Fresh entries (d :: metadata)) {fuel : Nat} (hfuel : metadata.length + 2 ≤ fuel) (rest : List UInt8)
    (lineno : Nat) {cache : List ParsedTrampoline} (hcache : CacheNamed cache) :
    parseMetadataFrom fuel (.string (macroName d)) (.at (0x3a :: (itemsText d.comma d.items ++
      0x2c :: (metadata.flatMap sendDefinition ++ 0x7d :: rest))) lineno) cache entries =
        .ok ((receiveMetadata cache entries (d :: metadata)).1, (receiveMetadata cache entries (d :: metadata)).2,
          .at rest lineno) := by
  induction metadata generalizing d entries fuel cache with
  | nil =>
      obtain ⟨fuel, rfl⟩ : ∃ n, fuel = n + 2 := ⟨fuel - 2, by simp only [List.length_nil] at hfuel; omega⟩
      have hnone : OrderedMap.find entries ((macroName d).map UInt8.toNat) = none := hfresh.2.2 d List.mem_cons_self
      rw [parseMetadataFrom, if_neg (by simp)]
      simp only
      rw [if_neg (by rw [macroName_head]; simp), if_neg (by rw [hnone]; simp)]
      simp only [expectToken_symbol (c := 0x3a) (by decide), lift_ok, ok_bind,
        parseTemplate_definition hd hcache, expectToken2_first (c := 0x2c) (by decide) 0x7d _ lineno, if_true]
      rw [show [].flatMap sendDefinition ++ 0x7d :: rest = 0x7d :: rest from rfl, getToken_symbol (by decide)]
      simp only [lift_ok, ok_bind]
      rw [parseMetadataFrom_close]
      rfl
  | cons e metadata ih =>
      obtain ⟨fuel, rfl⟩ : ∃ n, fuel = n + 1 := ⟨fuel - 1, by simp only [List.length_cons] at hfuel; omega⟩
      have hnone : OrderedMap.find entries ((macroName d).map UInt8.toNat) = none := hfresh.2.2 d List.mem_cons_self
      have he := hmetadata e List.mem_cons_self
      have htext : (e :: metadata).flatMap sendDefinition ++ 0x7d :: rest = sendString (macroName e) ++ 0x3a ::
          (itemsText e.comma e.items ++ 0x2c :: (metadata.flatMap sendDefinition ++ 0x7d :: rest)) := by
        rw [← sendDefinition_text he]
        simp
      rw [parseMetadataFrom, if_neg (by simp)]
      simp only
      rw [if_neg (by rw [macroName_head]; simp), if_neg (by rw [hnone]; simp)]
      simp only [expectToken_symbol (c := 0x3a) (by decide), lift_ok, ok_bind,
        parseTemplate_definition hd hcache, expectToken2_first (c := 0x2c) (by decide) 0x7d _ lineno, if_true]
      rw [htext, getToken_string he.name]
      simp only [lift_ok, ok_bind]
      rw [ih he (fun k hk => hmetadata k (List.mem_cons_of_mem _ hk)) (hfresh.insert _)
        (by simp only [List.length_cons] at hfuel; omega)
        (hcache.share (templateEntries_named d.items List.not_mem_nil))]
      rfl

theorem receiveMetadata_named (metadata : List Definition) {cache : List ParsedTrampoline} (hcache : CacheNamed cache)
    (entries : List (List Nat × ParsedTrampoline)) : CacheNamed (receiveMetadata cache entries metadata).2 := by
  induction metadata generalizing cache entries with
  | nil => exact hcache
  | cons d metadata ih => exact ih (hcache.share (templateEntries_named d.items List.not_mem_nil)) _

theorem sendDefinition_length (metadata : List Definition) : metadata.length ≤ (metadata.flatMap sendDefinition).length := by
  induction metadata with
  | nil => exact Nat.zero_le _
  | cons d metadata ih =>
      have hquote : (ascii "\"$").length = 2 := rfl
      simp only [List.flatMap_cons, sendDefinition, sendDefinitionHeader, List.length_append, List.length_cons] at ih ⊢
      omega

theorem metadataField_reads {metadata : List Definition} (hmetadata : ∀ d ∈ metadata, DefinitionSendable d)
    (hnames : metadata.Pairwise fun d d' => macroName d ≠ macroName d') :
    (metadataField metadata).Reads CacheNamed .PATCH := by
  have hname : ("metadata", ParamName.METADATA) ∈ paramNames := by simp [paramNames]
  refine Sent.reads_named hname rfl ?_ fun cache hcache => receiveMetadata_named metadata hcache []
  intro rest lineno cache hcache _
  have hlen := sendDefinition_length metadata
  have htext : ascii "\x7b" ++ metadata.flatMap sendDefinition ++ ascii "\x7d" ++ rest =
      0x7b :: (metadata.flatMap sendDefinition ++ 0x7d :: rest) := by
    simp [ascii]
  have hread : parseMetadata (.at (0x7b :: (metadata.flatMap sendDefinition ++ 0x7d :: rest)) lineno) cache =
      .ok ((receiveMetadata cache [] metadata).1, (receiveMetadata cache [] metadata).2, .at rest lineno) := by
    unfold parseMetadata
    simp only [expectToken_symbol (c := 0x7b) (by decide), lift_ok, ok_bind]
    cases metadata with
    | nil =>
        rw [show [].flatMap sendDefinition ++ 0x7d :: rest = 0x7d :: rest from rfl,
          expectToken2_first (c := 0x7d) (by decide) TOKEN_STRING rest lineno]
        simp only [lift_ok, ok_bind]
        rw [parseMetadataFrom_close]
        rfl
    | cons d metadata =>
        have hd := hmetadata d List.mem_cons_self
        have hcons : (d :: metadata).flatMap sendDefinition ++ 0x7d :: rest = sendString (macroName d) ++ 0x3a ::
            (itemsText d.comma d.items ++ 0x2c :: (metadata.flatMap sendDefinition ++ 0x7d :: rest)) := by
          rw [← sendDefinition_text hd]
          simp
        have hfuel : metadata.length + 2 ≤
            (Parser.at (0x7b :: ((d :: metadata).flatMap sendDefinition ++ 0x7d :: rest)) lineno).stream.length + 1 := by
          simp only [Parser.at, List.length_cons, List.length_append] at hlen ⊢
          omega
        generalize hn : (Parser.at (0x7b :: ((d :: metadata).flatMap sendDefinition ++ 0x7d :: rest)) lineno).stream.length
          + 1 = n at hfuel
        rw [hcons, expectToken2_string hd.name]
        simp only [lift_ok, ok_bind]
        exact parseMetadataFrom_definitions hd (fun e he => hmetadata e (List.mem_cons_of_mem _ he))
          ⟨List.Pairwise.nil, hnames, fun _ _ => rfl⟩ hfuel rest lineno hcache
  show (parseMetadata (.at (ascii "\x7b" ++ metadata.flatMap sendDefinition ++ ascii "\x7d" ++ rest) lineno) cache >>= _) = _
  rw [htext]
  simp only [hread, ok_bind]
  rfl

end E9Patch.Rpc
