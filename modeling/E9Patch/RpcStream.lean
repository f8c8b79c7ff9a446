import E9Patch.RpcRequests

/-!
The stream of requests. The loop of the backend reads what the frontend writes as the messages that were meant, in their
order, up to the first reservation with more parameters than a message holds.
-/

namespace E9Patch.Rpc
open Bytes Numerals Fallible
open E9Tool

/-- What the backend makes of requests: their messages, unless one has too many parameters. -/
def receive : Nat → Nat → List ParsedTrampoline → List Request → Except MessageError (List Message)
  | _, _, _, [] => .ok []
  | lineno, id, cache, r :: rs =>
    if (requestFields r).length ≤ PARAM_MAX then
      (receive (lineno + 1) (id + 1) (receiveFields cache (requestFields r)).2 rs).map
        (⟨(requestMethod r).2, lineno, id, (receiveFields cache (requestFields r)).1⟩ :: ·)
    else .error ⟨lineno, .params⟩

/-- A request that is sent as a message whose parameters are read with every cache that meets `P`. -/
structure RequestReads (P : List ParsedTrampoline → Prop) (r : Request) : Prop where
  fits : RequestFits r
  reads : ∀ f ∈ requestFields r, f.Reads P (requestMethod r).2

theorem requestSendable_reads {r : Request} (h : RequestSendable r) : RequestReads CacheNamed r :=
  ⟨requestSendable_fits h, requestFields_reads h⟩

section
variable {P : List ParsedTrampoline → Prop}

/-- One request in front of the rest of the stream. -/
theorem getMessage_send {r : Request} (h : RequestReads P r) {id : Nat} (hid : id < 2 ^ 31) (rest : List UInt8)
    (lineno : Nat) {cache : List ParsedTrampoline} (hcache : P cache) : getMessage (r.send id ++ rest) lineno cache =
      if (requestFields r).length ≤ PARAM_MAX then
        .ok (some ⟨(requestMethod r).2, lineno, id, (receiveFields cache (requestFields r)).1⟩,
          (receiveFields cache (requestFields r)).2, .at (0x0a :: rest) lineno)
      else .error ⟨lineno, .params⟩ := by
  obtain ⟨hplain, hmethod⟩ := methodName_plain (requestMethod_known r)
  have hreads := h.reads
  rw [← hmethod] at hreads
  rw [send_fields h.fits, getMessage_sendMessage hplain hreads hid rest lineno hcache, messageResult, objectResult, hmethod]
  rw [List.length_nil, Nat.zero_add]
  split <;> rfl

/-- The loop behind the line break of the message before. -/
theorem readMessages_line {rs : List Request} (h : ∀ r ∈ rs, RequestReads P r) {id : Nat}
    (hid : id + rs.length ≤ 2 ^ 31) {fuel : Nat} (hfuel : rs.length < fuel) (lineno : Nat)
    {cache : List ParsedTrampoline} (hcache : P cache) :
    readMessages fuel (0x0a :: sendAll id rs) lineno cache = receive (lineno + 1) id cache rs := by
  induction rs generalizing id fuel lineno cache with
  | nil =>
      obtain ⟨fuel, rfl⟩ : ∃ n, fuel = n + 1 := ⟨fuel - 1, by omega⟩
      rw [readMessages, getMessage_line, show sendAll id [] = [] from rfl, getMessage_end]
      rfl
  | cons r rs ih =>
      obtain ⟨fuel, rfl⟩ : ∃ n, fuel = n + 1 := ⟨fuel - 1, by omega⟩
      rw [List.length_cons] at hid hfuel
      obtain ⟨hr, hrs⟩ := List.forall_mem_cons.mp h
      rw [readMessages, getMessage_line, sendAll, getMessage_send hr (by omega) _ _ hcache, receive]
      split
      · rw [ok_bind]
        show (readMessages fuel (0x0a :: sendAll (id + 1) rs) (lineno + 1) _).map _ = _
        rw [ih hrs (by omega) (by omega) _ (receiveFields_keeps hr.reads hcache)]
      · rfl

/-- The loop over requests whose parameters are read. -/
theorem readMessages_receive {rs : List Request} (h : ∀ r ∈ rs, RequestReads P r) (hlen : rs.length ≤ 2 ^ 31)
    {fuel : Nat} (hfuel : rs.length < fuel) (lineno : Nat) {cache : List ParsedTrampoline} (hcache : P cache) :
    readMessages fuel (sendAll 0 rs) lineno cache = receive lineno 0 cache rs := by
  obtain ⟨fuel, rfl⟩ : ∃ n, fuel = n + 1 := ⟨fuel - 1, by omega⟩
  cases rs with
  | nil =>
      rw [readMessages, show sendAll 0 [] = [] from rfl, getMessage_end]
      rfl
  | cons r rs =>
      rw [List.length_cons] at hlen hfuel
      obtain ⟨hr, hrs⟩ := List.forall_mem_cons.mp h
      rw [readMessages, sendAll, getMessage_send hr (by omega) _ _ hcache, receive]
      split
      · rw [ok_bind]
        show (readMessages fuel (0x0a :: sendAll 1 rs) lineno _).map _ = _
        rw [readMessages_line hrs (by omega) (by omega) _ (receiveFields_keeps hr.reads hcache)]
      · rfl

end

theorem cacheNamed_nil : CacheNamed [] := fun _ h => absurd h List.not_mem_nil

/-- An instruction with a trampoline that prints it, a reservation and the end of the stream. -/
def sampleRequests : List Request :=
  [.binary (ascii "1.0.0") (ascii "elf.exe") (ascii "a.out"), .printTrampoline,
    .composite 0 [ascii ".Ltrampoline", ascii "$print", ascii "$instr", ascii "$BREAK", ascii "$DATA@print"],
    .template (ascii "$f") [.byte 0xe3, .rel8 (ascii ".Lskip"), .byte 0xe8, .rel32Address 0x70001000,
      .name (ascii ".Lskip")] true, .instruction 0x401000 3 0x1000,
    .patch 0 (printMetadata (ascii "xor %eax, %eax")) 0x1000, .reserve (-0x1000) 0x1000 false,
    .emit (ascii "b.out") (ascii "binary")]

theorem sampleRequests_sendable : ∀ r ∈ sampleRequests, RequestSendable r := by
  have hdefinitions : ∀ d ∈ printMetadata (ascii "xor %eax, %eax"), DefinitionSendable d := by
    rintro d (_ | ⟨_, _ | ⟨_, ⟨⟩⟩⟩)
    · refine ⟨by decide, by decide, ?_⟩
      rintro i (_ | ⟨_, _ | ⟨_, ⟨⟩⟩⟩)
      · exact ⟨by decide, .inr (by decide)⟩
      · show Sendable _
        decide
    · refine ⟨by decide, by decide, ?_⟩
      rintro i (_ | ⟨_, ⟨⟩⟩)
      exact .inl ⟨.inr (.inr rfl), by decide, by decide⟩
  have hcomposite : ∀ s ∈ [ascii ".Ltrampoline", ascii "$print", ascii "$instr", ascii "$BREAK", ascii "$DATA@print"],
      ItemSendable (.name s) := by
    unfold ItemSendable
    decide
  have htemplate : ∀ i ∈ [Item.byte 0xe3, .rel8 (ascii ".Lskip"), .byte 0xe8, .rel32Address 0x70001000,
      .name (ascii ".Lskip")], ItemSendable i := by
    have hskip : Sendable (ascii ".Lskip") ∧ (ascii ".Lskip").take 2 = ascii ".L" := by decide
    rintro i (_ | ⟨_, _ | ⟨_, _ | ⟨_, _ | ⟨_, _ | ⟨_, ⟨⟩⟩⟩⟩⟩⟩)
    · trivial
    · exact hskip
    · trivial
    · exact ⟨by decide, by decide⟩
    · exact ⟨hskip.1, .inr hskip.2⟩
  rintro r (_ | ⟨_, _ | ⟨_, _ | ⟨_, _ | ⟨_, _ | ⟨_, _ | ⟨_, _ | ⟨_, _ | ⟨_, ⟨⟩⟩⟩⟩⟩⟩⟩⟩⟩)
  · exact ⟨by decide, by decide +kernel, by decide⟩
  · trivial
  · exact ⟨by decide, hcomposite⟩
  · exact ⟨by decide, htemplate⟩
  · exact ⟨⟨by decide, by decide⟩, ⟨by decide, by decide⟩, ⟨by decide, by decide⟩⟩
  · exact ⟨by decide, hdefinitions, by decide, ⟨by decide, by decide⟩⟩
  · exact ⟨⟨by decide, by decide⟩, ⟨by decide, by decide⟩⟩
  · exact ⟨by decide, by decide +kernel⟩

/-- A reservation with everything that can be sent with it. -/
def FullReservation : Request → Prop
  | .reserveData R =>
    R.init ≠ 0 ∧ R.fini ≠ 0 ∧ R.preinit ≠ [] ∧ R.postinit ≠ [] ∧ R.mmap ≠ 0 ∧ R.absolute = true
  | .segment S => S.absolute = true ∧ S.preinit.isSome = true ∧ S.postinit.isSome = true ∧ S.init.isSome = true ∧
      S.fini.isSome = true ∧ S.mmap.isSome = true
  | _ => False

theorem reserveDataFields_length (R : ReserveData) :
    (reserveDataFields R).length ≤ PARAM_MAX ↔ ¬FullReservation (.reserveData R) := by
  simp only [reserveDataFields, nonZeroField, nonEmptyField, absoluteFields, FullReservation, PARAM_MAX]
  by_cases hinit : R.init = 0 <;> by_cases hfini : R.fini = 0 <;> by_cases hmmap : R.mmap = 0 <;>
    by_cases hpre : R.preinit = [] <;> by_cases hpost : R.postinit = [] <;> cases R.absolute <;>
      simp [hinit, hfini, hmmap, hpre, hpost]

theorem segmentFields_length (S : SegmentData) :
    (segmentFields S).length ≤ PARAM_MAX ↔ ¬FullReservation (.segment S) := by
  simp only [segmentFields, integerFields, bytesFields, absoluteFields, FullReservation, PARAM_MAX]
  cases S.init <;> cases S.fini <;> cases S.mmap <;> cases S.preinit <;> cases S.postinit <;> cases S.absolute <;> simp

/-- Only a full reservation has more parameters than a message holds. -/
theorem requestFields_length (r : Request) : (requestFields r).length ≤ PARAM_MAX ↔ ¬FullReservation r := by
  cases r with
  | reserveData R => exact reserveDataFields_length R
  | segment S => exact segmentFields_length S
  | reserve addr len absolute => cases absolute <;> simp [requestFields, absoluteFields, FullReservation, PARAM_MAX]
  | patch tid metadata offset =>
      by_cases hmetadata : metadata = [] <;> simp [requestFields, FullReservation, PARAM_MAX, hmetadata]
  | _ => simp [requestFields, templateFields, FullReservation, PARAM_MAX]

theorem receive_ok (lineno id : Nat) (cache : List ParsedTrampoline) (rs : List Request) :
    (∃ ms, receive lineno id cache rs = .ok ms) ↔ ∀ r ∈ rs, ¬FullReservation r := by
  induction rs generalizing lineno id cache with
  | nil => simp [receive]
  | cons r rs ih =>
      rw [receive, List.forall_mem_cons, ← requestFields_length, ← ih (lineno + 1) (id + 1)]
      by_cases hmax : (requestFields r).length ≤ PARAM_MAX
      · rw [if_pos hmax]
        generalize receive (lineno + 1) (id + 1) _ rs = x
        cases x <;> simp [Except.map, hmax]
      · simp [hmax]

/-- A segment with everything, of an ELF file with code before and after its initialisation. -/
def fullSegment : SegmentData :=
  { addr := 0x700000000000, bytes := [0xc3], memsz := 2, r := true, w := false, x := true, init := some 0x700000000000
    fini := some 0x700000000000, mmap := some 0x700000000000, absolute := true, preinit := some [0x90]
    postinit := some [0x90] }

theorem fullSegment_sendable : RequestSendable (.segment fullSegment) := by
  have hint : IsInt64 0x700000000000 := ⟨by decide, by decide⟩
  refine ⟨by decide, hint, ?_, ?_, ?_⟩ <;> rintro i ⟨⟩ <;> exact hint

/-- An executable segment with a routine in it. -/
def HasRoutine (elf : ElfFile) (phdr : Phdr) (addr : Int) : Prop :=
  phdr.p_flags &&& PF_X ≠ 0 ∧ phdr.p_vaddr + elf.base ≤ addr ∧ addr ≤ phdr.p_vaddr + elf.base + phdr.p_memsz

theorem routineParam_isSome (elf : ElfFile) (phdr : Phdr) (addr : Int) :
    (routineParam (phdr.p_vaddr + elf.base) (phdr.p_vaddr + elf.base + phdr.p_memsz) phdr.p_flags addr).isSome = true ↔
      HasRoutine elf phdr addr := by
  unfold routineParam HasRoutine
  split <;> simp_all

/-- Segments behind the first have no code of their own to be run. -/
theorem elfSegments_later (elf : ElfFile) (absolute : Bool) (phdrs : List Phdr) :
    ∀ S ∈ elfSegments elf absolute false phdrs, S.preinit = none := by
  induction phdrs with
  | nil => intro S hS; exact absurd hS List.not_mem_nil
  | cons phdr phdrs ih =>
      intro S hS
      rw [elfSegments] at hS
      split at hS
      · exact ih S hS
      · rcases List.mem_cons.mp hS with rfl | hS
        · rfl
        · exact ih S hS

/-- The first segment is the first loadable one. -/
theorem elfSegments_find (elf : ElfFile) (absolute : Bool) (phdrs : List Phdr) :
    (∀ S ∈ elfSegments elf absolute true phdrs, ¬FullReservation (.segment S)) ↔
      ∀ phdr, phdrs.find? (fun phdr => phdr.p_type = PT_LOAD) = some phdr →
        ¬FullReservation (.segment (segmentData elf absolute true phdr)) := by
  induction phdrs with
  | nil => simp [elfSegments]
  | cons phdr phdrs ih =>
      rw [elfSegments]
      by_cases hload : phdr.p_type = PT_LOAD
      · rw [if_neg (by simpa using hload), List.find?_cons_of_pos (by simpa using hload)]
        constructor
        · rintro h q ⟨⟩
          exact h _ List.mem_cons_self
        · intro h S hS
          rcases List.mem_cons.mp hS with rfl | hS
          · exact h phdr rfl
          · intro hfull
            have hnone := elfSegments_later elf absolute phdrs S hS
            have hsome := hfull.2.1
            rw [hnone] at hsome
            cases hsome
      · rw [if_pos hload, List.find?_cons_of_neg (by simpa using hload)]
        exact ih

/-- **Embedding.** The segments of an ELF file arrive exactly if the first of them is not an executable one with all three
routines, while there is code before and after them and the file is placed at absolute addresses. -/
theorem elf_accepted {elf : ElfFile} {absolute : Bool}
    (h : ∀ S ∈ elfSegments elf absolute true elf.phdrs, RequestSendable (.segment S))
    (hlen : elf.phdrs.length ≤ 2 ^ 31) {fuel : Nat} (hfuel : elf.phdrs.length < fuel) (lineno : Nat)
    (cache : List ParsedTrampoline) :
    (∃ ms, readMessages fuel (sendAll 0 (sendELFFileMessage elf absolute)) lineno cache = .ok ms) ↔
      ¬(absolute = true ∧ elf.preinit.isSome = true ∧ elf.postinit.isSome = true ∧
        ∃ phdr, elf.phdrs.find? (fun phdr => phdr.p_type = PT_LOAD) = some phdr ∧
          HasRoutine elf phdr elf.init ∧ HasRoutine elf phdr elf.fini ∧ HasRoutine elf phdr elf.mmap) := by
  have hcount : ∀ first phdrs, (elfSegments elf absolute first phdrs).length ≤ phdrs.length := by
    intro first phdrs
    induction phdrs generalizing first with
    | nil => exact Nat.le_refl _
    | cons phdr phdrs ih =>
        rw [elfSegments]
        split
        · exact Nat.le_succ_of_le (ih first)
        · exact Nat.succ_le_succ (ih false)
  have hrequests : (sendELFFileMessage elf absolute).length ≤ elf.phdrs.length := by
    rw [sendELFFileMessage, List.length_map]
    exact hcount true elf.phdrs
  -- no segment has a template, so that the cache may be any
  have hreads : ∀ r ∈ sendELFFileMessage elf absolute, RequestReads (fun _ => True) r := by
    intro r hr
    obtain ⟨S, hS, rfl⟩ := List.mem_map.mp hr
    exact ⟨requestSendable_fits (h S hS), segmentFields_reads (h S hS)⟩
  have hsegments : (∀ r ∈ sendELFFileMessage elf absolute, ¬FullReservation r) ↔
      ∀ S ∈ elfSegments elf absolute true elf.phdrs, ¬FullReservation (.segment S) := by
    simp [sendELFFileMessage]
  rw [readMessages_receive hreads (by omega) (by omega) lineno trivial, receive_ok, hsegments, elfSegments_find]
  have hfull : ∀ phdr, FullReservation (.segment (segmentData elf absolute true phdr)) ↔
      absolute = true ∧ elf.preinit.isSome = true ∧ elf.postinit.isSome = true ∧
        HasRoutine elf phdr elf.init ∧ HasRoutine elf phdr elf.fini ∧ HasRoutine elf phdr elf.mmap := by
    intro phdr
    simp only [← routineParam_isSome]
    rfl
  simp only [hfull]
  constructor
  · rintro hall ⟨habs, hpre, hpost, phdr, hfind, hroutines⟩
    exact hall phdr hfind ⟨habs, hpre, hpost, hroutines⟩
  · rintro hnot phdr hfind ⟨habs, hpre, hpost, hroutines⟩
    exact hnot ⟨habs, hpre, hpost, phdr, hfind, hroutines⟩

/-- A file with one segment, which is loaded at 0 and is executable. -/
def sampleElf : ElfFile :=
  { base := 0x10000000, data := [0xc3], phdrs := [⟨PT_LOAD, PF_R ||| PF_X, 0, 0, 1, 1⟩], init := 0x10000000
    fini := 0x10000000, mmap := 0x10000000, preinit := some [0x90], postinit := some [0x90] }

theorem sampleElf_refused :
    ¬∃ ms, readMessages 2 (sendAll 0 (sendELFFileMessage sampleElf true)) 1 [] = .ok ms := by
  have hsendable : ∀ S ∈ elfSegments sampleElf true true sampleElf.phdrs, RequestSendable (.segment S) := by
    have hint : IsInt64 0x10000000 := ⟨by decide, by decide⟩
    rintro S (_ | ⟨_, ⟨⟩⟩)
    refine ⟨by decide, hint, ?_, ?_, ?_⟩ <;> rintro i ⟨⟩ <;> exact hint
  rw [elf_accepted hsendable (by decide) (by decide), not_not]
  exact ⟨rfl, rfl, rfl, _, rfl, by unfold HasRoutine; decide, by unfold HasRoutine; decide, by unfold HasRoutine; decide⟩

end E9Patch.Rpc
