import E9Patch.RpcRoundTrip

/-!
Requests. Every request of the frontend is a message of a method with its parameters, each of them read by the backend;
so the backend's loop reads whatever sequence of requests the frontend writes, one line and one number each.
-/

namespace E9Patch.Rpc
open Bytes Numerals Fallible
open E9Tool

/-! ### Requests as messages -/

/-- The name of the method of a request, and the method. -/
def requestMethod : Request → String × Method
  | .binary _ _ _ => ("binary", .BINARY)
  | .options _ => ("options", .OPTIONS)
  | .instruction _ _ _ => ("instruction", .INSTRUCTION)
  | .reserve _ _ _ | .reserveData _ | .segment _ => ("reserve", .RESERVE)
  | .emptyTrampoline | .trapTrampoline | .signalTrampoline _ | .printTrampoline | .exitTrampoline _ | .template _ _ _
  | .composite _ _ => ("trampoline", .TRAMPOLINE)
  | .patch _ _ _ => ("patch", .PATCH)
  | .emit _ _ => ("emit", .EMIT)

def templateFields (name : List UInt8) (items : List Item) (comma : Bool) : List Sent :=
  [stringField "name" name, templateField items comma]

def nonZeroField (name : String) (i : Int) : List Sent := if i ≠ 0 then [integerField name i] else []

def nonEmptyField (name : String) (bytes : List UInt8) : List Sent := if bytes ≠ [] then [bytesField name bytes] else []

def absoluteFields (absolute : Bool) : List Sent := if absolute then [absoluteField] else []

def reserveDataFields (R : ReserveData) : List Sent :=
  [integerField "address" R.addr, protectionField R.r R.w R.x] ++ nonZeroField "init" R.init ++
    nonZeroField "fini" R.fini ++ nonEmptyField "preinit" R.preinit ++ nonEmptyField "postinit" R.postinit ++
    nonZeroField "mmap" R.mmap ++ absoluteFields R.absolute ++
    [match R.data with
      | some data => bytesField "bytes" data
      | none => integerField "length" R.len]

def integerFields (name : String) : Option Int → List Sent
  | some i => [integerField name i]
  | none => []

def bytesFields (name : String) : Option (List UInt8) → List Sent
  | some bytes => [bytesField name bytes]
  | none => []

/-- The bytes of a segment in memory. -/
def segmentBytes (S : SegmentData) : List UInt8 := S.bytes ++ List.replicate (S.memsz - S.bytes.length) 0

def segmentFields (S : SegmentData) : List Sent :=
  [integerField "address" S.addr] ++ absoluteFields S.absolute ++ bytesFields "preinit" S.preinit ++
    bytesFields "postinit" S.postinit ++ integerFields "init" S.init ++ integerFields "fini" S.fini ++
    integerFields "mmap" S.mmap ++ [protectionField S.r S.w S.x] ++ [bytesField "bytes" (segmentBytes S)]

/-- The parameters of a request. -/
def requestFields : Request → List Sent
  | .binary VERSION mode filename => [stringField "version" VERSION, stringField "filename" filename, modeField mode]
  | .options argv => [argvField argv]
  | .instruction addr size offset => [addressField addr, integerField "length" size, integerField "offset" offset]
  | .reserve addr len absolute =>
    [integerField "address" addr] ++ absoluteFields absolute ++ [integerField "length" len]
  | .reserveData R => reserveDataFields R
  | .segment S => segmentFields S
  | .emptyTrampoline => templateFields (ascii "$empty") emptyItems false
  | .trapTrampoline => templateFields (ascii "$trap") trapItems false
  | .signalTrampoline sig => templateFields (ascii "$signal_" ++ signedNumeral sig) (signalItems sig) false
  | .printTrampoline => templateFields (ascii "$print") printItems false
  | .exitTrampoline status => templateFields (ascii "$exit_" ++ signedNumeral status) (exitItems status) false
  | .template name items comma => templateFields name items comma
  | .composite tid strings => templateFields (tmpName tid) (strings.map .name) true
  | .patch tid metadata offset =>
    [trampolineField tid] ++ (if metadata ≠ [] then [metadataField metadata] else []) ++ [integerField "offset" offset]
  | .emit filename format => [stringField "filename" filename, formatField format]

/-! ### Separators -/

/-- Parameters that are followed by others, each with its separator. -/
def openFields (fields : List Sent) : List UInt8 :=
  fields.flatMap fun f => sendParamHeader f.name ++ f.text ++ ascii ","

theorem openFields_append (fields more : List Sent) : openFields (fields ++ more) = openFields fields ++ openFields more :=
  List.flatMap_append

theorem sendFields_true (fields : List Sent) (f : Sent) :
    sendFields true (fields ++ [f]) = ascii "," ++ openFields fields ++ (sendParamHeader f.name ++ f.text) := by
  induction fields with
  | nil => simp [sendFields, openFields]
  | cons g fields ih =>
      rw [List.cons_append, sendFields, ih]
      simp [openFields]

/-- The separators stand behind all parameters but the last. -/
theorem sendFields_open (fields : List Sent) (f : Sent) :
    sendFields false (fields ++ [f]) = openFields fields ++ (sendParamHeader f.name ++ f.text) := by
  cases fields with
  | nil => simp [sendFields, openFields]
  | cons g fields =>
      rw [List.cons_append, sendFields, sendFields_true]
      simp [openFields]

theorem openFields_nonZero (name : String) (i : Int) : openFields (nonZeroField name i) = sendNonZero name i := by
  unfold nonZeroField sendNonZero
  split
  · simp [openFields, integerField, sendSeparator]
  · rfl

theorem openFields_nonEmpty (name : String) (bytes : List UInt8) :
    openFields (nonEmptyField name bytes) = sendNonEmpty name bytes := by
  unfold nonEmptyField sendNonEmpty
  split
  · simp [openFields, bytesField, sendSeparator]
  · rfl

theorem openFields_absolute (absolute : Bool) : openFields (absoluteFields absolute) =
    if absolute then sendParamHeader "absolute" ++ ascii "true" ++ sendSeparator false else [] := by
  cases absolute with
  | false => rfl
  | true => simp [openFields, absoluteFields, absoluteField, sendSeparator]

theorem openFields_integer (name : String) (i : Option Int) :
    openFields (integerFields name i) = sendIntegerParam name i := by
  cases i with
  | none => rfl
  | some i => simp [openFields, integerFields, sendIntegerParam, integerField, sendSeparator]

theorem openFields_bytes (name : String) (bytes : Option (List UInt8)) :
    openFields (bytesFields name bytes) = sendBytesParam name bytes := by
  cases bytes with
  | none => rfl
  | some bytes => simp [openFields, bytesFields, sendBytesParam, bytesField, sendSeparator]

/-- The bytes of a segment are sent as other bytes are, as long as the file has no more than the memory. -/
theorem sendSegmentBytes_list {memsz j : Nat} {bytes : List UInt8} (h : j + bytes.length = memsz) :
    sendSegmentBytes memsz j bytes = sendByteList bytes := by
  induction bytes generalizing j with
  | nil => rfl
  | cons b bytes ih =>
      rw [List.length_cons] at h
      rw [sendSegmentBytes, ih (by omega)]
      cases bytes with
      | nil =>
          rw [List.length_nil] at h
          rw [if_neg (by omega)]
          simp [sendByteList]
      | cons c bytes =>
          rw [List.length_cons] at h
          rw [if_pos (by omega)]
          simp [sendByteList, ascii]

theorem sendSegment_fields {S : SegmentData} (h : S.bytes.length ≤ S.memsz) (id : Nat) :
    sendSegmentMessage S id = sendMessage "reserve" (segmentFields S) id := by
  have hbytes : sendSegmentBytes S.memsz 0 (segmentBytes S) = sendByteList (segmentBytes S) := by
    apply sendSegmentBytes_list
    simp only [segmentBytes, List.length_append, List.length_replicate]
    omega
  have hprotection : sendString (protectionText S.r S.w S.x) = ascii "\"" ++ protectionText S.r S.w S.x ++ ascii "\"" := by
    cases S.r <;> cases S.w <;> cases S.x <;> decide
  have hbrackets : sendBytes (segmentBytes S) = ascii "[" ++ sendByteList (segmentBytes S) ++ ascii "]" := rfl
  have hmemory : S.bytes ++ List.replicate (S.memsz - S.bytes.length) 0 = segmentBytes S := rfl
  unfold sendSegmentMessage sendMessage segmentFields
  rw [hmemory, hbytes, hprotection]
  rw [sendFields_open]
  simp only [openFields_append, openFields_integer, openFields_bytes, openFields_absolute]
  simp [openFields, integerField, protectionField, bytesField, sendSeparator, hbrackets]

theorem sendTemplate_fields (name : List UInt8) (items : List Item) (comma : Bool) (id : Nat) :
    sendTemplate name items comma id = sendMessage "trampoline" (templateFields name items comma) id := by
  simp [sendTemplate, sendMessage, templateFields, sendFields, stringField, templateField, itemsText, sendSeparator]

/-- The strings of a composite template are items with a comma behind each of them. -/
theorem sendStrings_items (strings : List (List UInt8)) : strings.flatMap (fun s => sendString s ++ ascii ",") =
    sendItems false (strings.map .name) ++ sendComma true (strings.map .name) := by
  have htail : ∀ strings : List (List UInt8), sendItems true (strings.map .name) ++ ascii "," =
      ascii "," ++ strings.flatMap fun s => sendString s ++ ascii "," := by
    intro strings
    induction strings with
    | nil => simp [sendItems]
    | cons s strings ih =>
        rw [List.map_cons, sendItems, List.append_assoc, ih]
        simp [sendItem]
  cases strings with
  | nil => rfl
  | cons s strings =>
      rw [List.flatMap_cons, List.append_assoc, ← htail]
      simp [sendItems, sendItem, sendComma]

theorem sendComposite_fields (tid : Nat) (strings : List (List UInt8)) (id : Nat) : sendCompositeMessage tid strings id =
    sendMessage "trampoline" (templateFields (tmpName tid) (strings.map .name) true) id := by
  have hname : ascii "\"$tmp_" ++ numeral 10 tid ++ ascii "\"" = sendString (tmpName tid) := by
    unfold sendString
    rw [tmpName_escape]
    rfl
  have hstrings := sendStrings_items strings
  simp only [sendCompositeMessage, hname, sendSeparator, Bool.false_eq_true, if_false, hstrings]
  simp [sendMessage, templateFields, sendFields, stringField, templateField, itemsText]

theorem sendReserveData_fields (R : ReserveData) (id : Nat) :
    sendReserveDataMessage R id = sendMessage "reserve" (reserveDataFields R) id := by
  unfold sendMessage reserveDataFields
  rw [sendFields_open]
  simp only [openFields_append, openFields_nonZero, openFields_nonEmpty, openFields_absolute]
  cases hdata : R.data with
  | none => simp [sendReserveDataMessage, openFields, integerField, protectionField, sendSeparator, hdata]
  | some data => simp [sendReserveDataMessage, openFields, integerField, bytesField, protectionField, sendSeparator, hdata]

/-- The segments of a well-formed file have no more bytes in the file than in memory. -/
def RequestFits : Request → Prop
  | .segment S => S.bytes.length ≤ S.memsz
  | _ => True

/-- Every sender writes the message of its method with its parameters. -/
theorem send_fields {r : Request} (h : RequestFits r) (id : Nat) : r.send id = sendMessage (requestMethod r).1 (requestFields r) id := by
  cases r with
  | binary VERSION mode filename =>
      simp [Request.send, sendBinaryMessage, requestMethod, requestFields, sendMessage, sendFields, stringField, modeField,
        sendSeparator]
  | options argv =>
      simp [Request.send, sendOptionsMessage, requestMethod, requestFields, sendMessage, sendFields, argvField,
        sendSeparator]
  | instruction addr size offset =>
      simp [Request.send, sendInstructionMessage, requestMethod, requestFields, sendMessage, sendFields, addressField,
        integerField, sendSeparator]
  | reserve addr len absolute =>
      show sendReserveMessage addr len absolute id =
        sendMessage "reserve" ([integerField "address" addr] ++ absoluteFields absolute ++ [integerField "length" len]) id
      unfold sendMessage
      rw [sendFields_open, openFields_append, openFields_absolute]
      simp [sendReserveMessage, openFields, integerField, sendSeparator]
  | reserveData R => exact sendReserveData_fields R id
  | segment S => exact sendSegment_fields h id
  | emptyTrampoline => exact sendTemplate_fields _ _ _ id
  | trapTrampoline => exact sendTemplate_fields _ _ _ id
  | signalTrampoline sig => exact sendTemplate_fields _ _ _ id
  | printTrampoline => exact sendTemplate_fields _ _ _ id
  | exitTrampoline status => exact sendTemplate_fields _ _ _ id
  | template name items comma => exact sendTemplate_fields _ _ _ id
  | composite tid strings => exact sendComposite_fields tid strings id
  | patch tid metadata offset =>
      have hquote : ascii "\"$tmp_" = ascii "\"" ++ ascii "$tmp_" := rfl
      by_cases hmetadata : metadata = []
      · simp [Request.send, sendPatchMessage, requestMethod, requestFields, sendMessage, sendFields, trampolineField,
          tmpName, integerField, sendSeparator, hmetadata, hquote]
      · simp [Request.send, sendPatchMessage, requestMethod, requestFields, sendMessage, sendFields, trampolineField,
          tmpName, metadataField, integerField, sendSeparator, hmetadata, hquote]
  | emit filename format =>
      simp [Request.send, sendEmitMessage, requestMethod, requestFields, sendMessage, sendFields, stringField, formatField,
        sendSeparator]

/-! ### Requests that arrive -/

/-- The requests that the backend can read: strings that can be sent, known modes and formats, and integers in range. -/
def RequestSendable : Request → Prop
  | .binary VERSION mode filename => Sendable VERSION ∧ (lookup modes mode).isSome = true ∧ Sendable filename
  | .options argv => ∀ arg ∈ argv, Sendable arg
  | .instruction addr size offset => IsInt64 addr ∧ IsInt64 size ∧ IsInt64 offset
  | .reserve addr len _ => IsInt64 addr ∧ IsInt64 len
  | .reserveData R => IsInt64 R.addr ∧ IsInt64 R.len ∧ IsInt64 R.init ∧ IsInt64 R.fini ∧ IsInt64 R.mmap
  | .segment S => S.bytes.length ≤ S.memsz ∧ IsInt64 S.addr ∧ (∀ i ∈ S.init, IsInt64 i) ∧ (∀ i ∈ S.fini, IsInt64 i) ∧
      ∀ i ∈ S.mmap, IsInt64 i
  | .emptyTrampoline | .trapTrampoline | .printTrampoline => True
  | .signalTrampoline i | .exitTrampoline i => -2 ^ 31 ≤ i ∧ i < 2 ^ 31
  | .template name items _ => Sendable name ∧ ∀ i ∈ items, ItemSendable i
  | .composite tid strings => tid < 2 ^ 64 ∧ ∀ s ∈ strings, ItemSendable (.name s)
  | .patch tid metadata offset => tid < 2 ^ 64 ∧ (∀ d ∈ metadata, DefinitionSendable d) ∧
      metadata.Pairwise (fun d d' => macroName d ≠ macroName d') ∧ IsInt64 offset
  | .emit filename format => Sendable filename ∧ (lookup formats format).isSome = true

theorem signedNumeral_plain {i : Int} (hi : -2 ^ 31 ≤ i ∧ i < 2 ^ 31) :
    (∀ c ∈ signedNumeral i, PlainByte c) ∧ (signedNumeral i).length ≤ 11 := by
  have hdigit : ∀ n, ∀ c ∈ numeral 10 n, PlainByte c :=
    fun n c hc => digit_plain _ (.inl (numeral_digits (by decide) (by decide) n c hc))
  have hlen : ∀ n : Nat, n < 10 ^ 10 → (numeral 10 n).length ≤ 10 := fun n => numeral_length (by decide) (by decide)
  unfold signedNumeral
  split
  · refine ⟨fun c hc => ?_, ?_⟩
    · rcases List.mem_cons.mp hc with rfl | hc
      · exact mark_plain.2.2
      · exact hdigit _ c hc
    · have := hlen (-i).toNat (by omega)
      simp only [List.length_cons]
      omega
  · refine ⟨hdigit _, ?_⟩
    have := hlen i.toNat (by omega)
    omega

/-- A name that ends with a number can be sent. -/
theorem numberedName_sendable (name : String) (h : plainName name = true) (hshort : (ascii name).length ≤ 16) {i : Int}
    (hi : -2 ^ 31 ≤ i ∧ i < 2 ^ 31) : Sendable (ascii name ++ signedNumeral i) := by
  obtain ⟨hplain, hlen⟩ := signedNumeral_plain hi
  have hname := plainName_sendable h
  refine ⟨fun h0 => ?_, fun heof => ?_, ?_⟩
  · rcases List.mem_append.mp h0 with h0 | h0
    · exact hname.zero h0
    · exact (hplain 0 h0).2.2 rfl
  · rcases List.mem_append.mp heof with heof | heof
    · exact hname.eof heof
    · exact (hplain EOF heof).2.1 rfl
  · simp only [List.length_append, STRING_MAX]
    omega

theorem templateFields_reads {name : List UInt8} {items : List Item} (hname : Sendable name)
    (hitems : ∀ i ∈ items, ItemSendable i) (comma : Bool) :
    ∀ f ∈ templateFields name items comma, f.Reads CacheNamed .TRAMPOLINE := by
  intro f hf
  rcases List.mem_pair.mp hf with rfl | rfl
  · exact stringField_reads .NAME hname (by simp [paramNames]) (by decide) rfl
  · exact templateField_reads hitems comma

section
variable {P : List ParsedTrampoline → Prop}

theorem nonZeroField_reads {name : String} {i : Int} (h : (integerField name i).Reads P .RESERVE) :
    ∀ f ∈ nonZeroField name i, f.Reads P .RESERVE := by
  intro f hf
  unfold nonZeroField at hf
  split at hf
  · rwa [List.mem_singleton.mp hf]
  · exact absurd hf List.not_mem_nil

theorem nonEmptyField_reads {name : String} {bytes : List UInt8} (h : (bytesField name bytes).Reads P .RESERVE) :
    ∀ f ∈ nonEmptyField name bytes, f.Reads P .RESERVE := by
  intro f hf
  unfold nonEmptyField at hf
  split at hf
  · rwa [List.mem_singleton.mp hf]
  · exact absurd hf List.not_mem_nil

theorem absoluteFields_reads (absolute : Bool) : ∀ f ∈ absoluteFields absolute, f.Reads P .RESERVE := by
  intro f hf
  cases absolute with
  | false => exact absurd hf List.not_mem_nil
  | true =>
      rw [List.mem_singleton.mp hf]
      exact absoluteField_reads

theorem reserveDataFields_reads {R : ReserveData} (h : RequestSendable (.reserveData R)) :
    ∀ f ∈ reserveDataFields R, f.Reads P .RESERVE := by
  obtain ⟨haddr, hlen, hinit, hfini, hmmap⟩ := h
  intro f hf
  simp only [reserveDataFields, List.mem_append, List.mem_pair, List.mem_singleton] at hf
  rcases hf with (((((((rfl | rfl) | hf) | hf) | hf) | hf) | hf) | hf) | rfl
  · exact integerField_reads .ADDRESS haddr (by simp [paramNames]) (by decide) rfl
  · exact protectionField_reads R.r R.w R.x
  · exact nonZeroField_reads (integerField_reads .INIT hinit (by simp [paramNames]) (by decide) rfl) f hf
  · exact nonZeroField_reads (integerField_reads .FINI hfini (by simp [paramNames]) (by decide) rfl) f hf
  · exact nonEmptyField_reads (bytesField_reads .PREINIT _ (by simp [paramNames]) (by decide) rfl) f hf
  · exact nonEmptyField_reads (bytesField_reads .POSTINIT _ (by simp [paramNames]) (by decide) rfl) f hf
  · exact nonZeroField_reads (integerField_reads .MMAP hmmap (by simp [paramNames]) (by decide) rfl) f hf
  · exact absoluteFields_reads R.absolute f hf
  · cases R.data with
    | none => exact integerField_reads .LENGTH hlen (by simp [paramNames]) (by decide) rfl
    | some data => exact bytesField_reads .BYTES data (by simp [paramNames]) (by decide) rfl

theorem integerFields_reads {name : String} {i : Option Int} (h : ∀ j ∈ i, (integerField name j).Reads P .RESERVE) :
    ∀ f ∈ integerFields name i, f.Reads P .RESERVE := by
  intro f hf
  cases i with
  | none => exact absurd hf List.not_mem_nil
  | some i =>
      rw [List.mem_singleton.mp hf]
      exact h i rfl

theorem bytesFields_reads {name : String} (h : ∀ bytes, (bytesField name bytes).Reads P .RESERVE)
    (bytes : Option (List UInt8)) : ∀ f ∈ bytesFields name bytes, f.Reads P .RESERVE := by
  intro f hf
  cases bytes with
  | none => exact absurd hf List.not_mem_nil
  | some bytes =>
      rw [List.mem_singleton.mp hf]
      exact h bytes

theorem segmentFields_reads {S : SegmentData} (h : RequestSendable (.segment S)) :
    ∀ f ∈ segmentFields S, f.Reads P .RESERVE := by
  obtain ⟨-, haddr, hinit, hfini, hmmap⟩ := h
  intro f hf
  simp only [segmentFields, List.mem_append, List.mem_singleton] at hf
  rcases hf with (((((((rfl | hf) | hf) | hf) | hf) | hf) | hf) | rfl) | rfl
  · exact integerField_reads .ADDRESS haddr (by simp [paramNames]) (by decide) rfl
  · exact absoluteFields_reads S.absolute f hf
  · exact bytesFields_reads (fun b => bytesField_reads .PREINIT b (by simp [paramNames]) (by decide) rfl) S.preinit f hf
  · exact bytesFields_reads (fun b => bytesField_reads .POSTINIT b (by simp [paramNames]) (by decide) rfl) S.postinit f hf
  · exact integerFields_reads (fun i hi => integerField_reads .INIT (hinit i hi) (by simp [paramNames]) (by decide) rfl) f hf
  · exact integerFields_reads (fun i hi => integerField_reads .FINI (hfini i hi) (by simp [paramNames]) (by decide) rfl) f hf
  · exact integerFields_reads (fun i hi => integerField_reads .MMAP (hmmap i hi) (by simp [paramNames]) (by decide) rfl) f hf
  · exact protectionField_reads S.r S.w S.x
  · exact bytesField_reads .BYTES _ (by simp [paramNames]) (by decide) rfl

end

theorem requestSendable_fits {r : Request} (h : RequestSendable r) : RequestFits r := by
  cases r with
  | segment S => exact h.1
  | _ => trivial

theorem requestMethod_known (r : Request) : requestMethod r ∈ methodNames := by
  cases r <;> simp [requestMethod, methodNames]

/-- Every parameter of a request that arrives is read as its value. -/
theorem requestFields_reads {r : Request} (h : RequestSendable r) :
    ∀ f ∈ requestFields r, f.Reads CacheNamed (requestMethod r).2 := by
  have hfits {i : Int} (hi : -2 ^ 31 ≤ i ∧ i < 2 ^ 31) : FitsInteger 32 i :=
    .inl ⟨.inr (.inr rfl), hi.1, by omega⟩
  cases r with
  | binary VERSION mode filename =>
      obtain ⟨hversion, hmode, hfilename⟩ := h
      show ∀ f ∈ requestFields _, f.Reads CacheNamed .BINARY
      rintro f (_ | ⟨_, _ | ⟨_, _ | ⟨_, ⟨⟩⟩⟩⟩)
      · exact stringField_reads .VERSION hversion (by simp [paramNames]) (by decide) rfl
      · exact stringField_reads .FILENAME hfilename (by simp [paramNames]) (by decide) rfl
      · exact modeField_reads hmode
  | options argv =>
      rintro f (_ | ⟨_, ⟨⟩⟩)
      exact argvField_reads h
  | instruction addr size offset =>
      obtain ⟨haddr, hsize, hoffset⟩ := h
      show ∀ f ∈ requestFields _, f.Reads CacheNamed .INSTRUCTION
      rintro f (_ | ⟨_, _ | ⟨_, _ | ⟨_, ⟨⟩⟩⟩⟩)
      · exact addressField_reads haddr (by decide)
      · exact integerField_reads .LENGTH hsize (by simp [paramNames]) (by decide) rfl
      · exact integerField_reads .OFFSET hoffset (by simp [paramNames]) (by decide) rfl
  | reserve addr len absolute =>
      obtain ⟨haddr, hlen⟩ := h
      show ∀ f ∈ requestFields _, f.Reads CacheNamed .RESERVE
      intro f hf
      simp only [requestFields, List.mem_append, List.mem_singleton] at hf
      rcases hf with (rfl | hf) | rfl
      · exact integerField_reads .ADDRESS haddr (by simp [paramNames]) (by decide) rfl
      · exact absoluteFields_reads absolute f hf
      · exact integerField_reads .LENGTH hlen (by simp [paramNames]) (by decide) rfl
  | reserveData R => exact reserveDataFields_reads h
  | segment S => exact segmentFields_reads h
  | emptyTrampoline =>
      exact templateFields_reads (by decide) (by simp [emptyItems]) false
  | trapTrampoline =>
      exact templateFields_reads (by decide) (by simp [trapItems, ItemSendable]) false
  | signalTrampoline sig =>
      refine templateFields_reads (numberedName_sendable "$signal_" (by decide) (by decide) h) ?_ false
      have hsig := hfits h
      simp [signalItems, saveItems, restoreItems, ItemSendable, hsig, hfits]
  | printTrampoline =>
      refine templateFields_reads (by decide) ?_ false
      have hlabel : Sendable (ascii ".Lasm@print") ∧ (ascii ".Lasm@print").take 2 = ascii ".L" := by decide
      have hmacro : Sendable (ascii "$ASM_LEN@print") ∧ (ascii "$ASM_LEN@print").head? = some 0x24 := by decide
      simp [printItems, saveItems, restoreItems, ItemSendable, hfits, hlabel, hmacro]
  | exitTrampoline status =>
      refine templateFields_reads (numberedName_sendable "$exit_" (by decide) (by decide) h) ?_ false
      have hstatus := hfits h
      simp [exitItems, ItemSendable, hstatus, hfits]
  | template name items comma => exact templateFields_reads h.1 h.2 comma
  | composite tid strings =>
      refine templateFields_reads (tmpName_sendable h.1).1 ?_ true
      intro i hi
      obtain ⟨s, hs, rfl⟩ := List.mem_map.mp hi
      exact h.2 s hs
  | patch tid metadata offset =>
      obtain ⟨htid, hmetadata, hnames, hoffset⟩ := h
      show ∀ f ∈ requestFields _, f.Reads CacheNamed .PATCH
      intro f hf
      simp only [requestFields, List.mem_append, List.mem_singleton] at hf
      rcases hf with (rfl | hf) | rfl
      · exact trampolineField_reads htid
      · split at hf
        · rw [List.mem_singleton.mp hf]
          exact metadataField_reads hmetadata hnames
        · exact absurd hf List.not_mem_nil
      · exact integerField_reads .OFFSET hoffset (by simp [paramNames]) (by decide) rfl
  | emit filename format =>
      obtain ⟨hfilename, hformat⟩ := h
      show ∀ f ∈ requestFields _, f.Reads CacheNamed .EMIT
      rintro f (_ | ⟨_, _ | ⟨_, ⟨⟩⟩⟩)
      · exact stringField_reads .FILENAME hfilename (by simp [paramNames]) (by decide) rfl
      · exact formatField_reads hformat

end E9Patch.Rpc
