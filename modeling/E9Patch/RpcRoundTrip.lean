import E9Patch.RpcFields

/-!
The message stream. What the frontend sends, in any order and with any values that can be sent, the backend reads as the
messages that were meant, one line each and numbered from 0, with the templates that its cache has for them.
-/

namespace E9Patch.Rpc
open Bytes Numerals Fallible
open E9Tool

/-! ### Messages -/

/-- The text of a message. -/
def sendMessage (method : String) (fields : List Sent) (id : Nat) : List UInt8 :=
  sendMessageHeader method ++ sendFields false fields ++ sendMessageFooter id

theorem expectString_name (name : String) (h : plainName name = true) (rest : List UInt8) (lineno : Nat) :
    expectString (.at (sendString (ascii name) ++ rest) lineno) (ascii name) = .ok (.at rest lineno) := by
  unfold expectString
  simp only [parseString_string (plainName_sendable h), lift_ok, ok_bind, if_true]

/-- A line break in front of a message counts. -/
theorem getToken_line (stream : List UInt8) (lineno : Nat) :
    getToken (.at (0x0a :: stream) lineno) = getToken (.at stream (lineno + 1)) := by
  unfold getToken peekToken Parser.at
  simp only
  rw [show skipSpaces (0x0a :: stream) lineno = skipSpaces stream (lineno + 1) by
    simp [skipSpaces, isspace, countLine]]

theorem getMessage_line (stream : List UInt8) (lineno : Nat) (cache : List ParsedTrampoline) :
    getMessage (0x0a :: stream) lineno cache = getMessage stream (lineno + 1) cache := by
  unfold getMessage expectToken2 expectTokens
  rw [show getToken ⟨0x0a :: stream, lineno, none⟩ = _ from getToken_line stream lineno]
  rfl

theorem getMessage_end (lineno : Nat) (cache : List ParsedTrampoline) :
    getMessage [] lineno cache = .ok (none, cache, .at [] lineno) := by
  have htoken : expectToken2 (.at [] lineno) 0x7b EOF = .ok (.eof, .at [] lineno) := by
    unfold expectToken2
    exact expectTokens_ok (by rfl) (List.mem_cons_of_mem _ (List.mem_singleton_self _))
  unfold getMessage
  rw [show expectToken2 ⟨[], lineno, none⟩ 0x7b EOF = _ from htoken]
  rfl

theorem sendMessage_text {method : String} (h : plainName method = true) (fields : List Sent) (id : Nat)
    (rest : List UInt8) : sendMessage method fields id ++ rest =
      0x7b :: (sendString (ascii "jsonrpc") ++ 0x3a :: (sendString (ascii "2.0") ++ 0x2c :: (sendString (ascii "method") ++
        0x3a :: (sendString (ascii method) ++ 0x2c :: (sendString (ascii "params") ++ 0x3a :: 0x7b ::
          (sendFields false fields ++ 0x7d :: 0x2c :: (sendString (ascii "id") ++ 0x3a :: (numeral 10 id ++
            0x7d :: 0x0a :: rest)))))))) := by
  rw [← sendName "jsonrpc" (by decide), ← sendName "2.0" (by decide),
    ← sendName "method" (by decide), ← sendName "params" (by decide),
    ← sendName "id" (by decide), ← sendName method h]
  simp [sendMessage, sendMessageHeader, sendMessageFooter, ascii]

/-- What the backend makes of a message. -/
def messageResult (method : String) (fields : List Sent) (id lineno : Nat) (cache : List ParsedTrampoline) (p : Parser) :
    Except MessageError (Option Message × Rest) :=
  (objectResult [] cache fields p).map fun r => (some ⟨parseMethod (ascii method), lineno, id, r.1⟩, r.2)

/-- **Messages.** A message whose parameters are read is read, unless it has more than eight of them. -/
theorem getMessage_sendMessage {P : List ParsedTrampoline → Prop} {method : String} (hmethod : plainName method = true)
    {fields : List Sent} (hfields : ∀ f ∈ fields, f.Reads P (parseMethod (ascii method))) {id : Nat} (hid : id < 2 ^ 31)
    (rest : List UInt8) (lineno : Nat) {cache : List ParsedTrampoline} (hcache : P cache) :
    getMessage (sendMessage method fields id ++ rest) lineno cache =
      messageResult method fields id lineno cache (.at (0x0a :: rest) lineno) := by
  have hopen := expectToken2_first (c := 0x7b) (by decide) EOF
  have hnumber : ∀ q, expectToken (.at (numeral 10 id ++ 0x7d :: q) lineno) TOKEN_NUMBER =
      .ok (.number id, .at (0x7d :: q) lineno) := by
    intro q
    have hget := getToken_signedNumeral (i := id) (by omega) (endsNumber_symbol (c := 0x7d) (by decide) q) lineno
    rw [signedNumeral, if_neg (by omega), Int.toNat_natCast] at hget
    exact expectTokens_ok hget (List.mem_singleton_self _)
  rw [sendMessage_text hmethod]
  unfold getMessage
  rw [show ∀ s, (⟨s, lineno, none⟩ : Parser) = .at s lineno from fun _ => rfl, hopen]
  simp only [lift_ok, ok_bind]
  rw [if_neg (by simp)]
  simp only [expectString_name "jsonrpc" (by decide), expectString_name "2.0" (by decide),
    expectString_name "method" (by decide), expectString_name "params" (by decide),
    expectToken_symbol (c := 0x3a) (by decide), expectToken_symbol (c := 0x2c) (by decide), lift_ok, ok_bind,
    parseString_string (plainName_sendable hmethod), parseParams_fields hfields _ _ hcache]
  unfold messageResult objectResult
  split
  · simp only [ok_bind, lift_ok, expectToken_symbol (c := 0x2c) (by decide), expectString_name "id" (by decide),
      expectToken_symbol (c := 0x3a) (by decide), hnumber, expectToken_symbol (c := 0x7d) (by decide)]
    show Except.ok _ = Except.ok _
    have hmod : ((id : Int) % 2 ^ 32).toNat = id := by omega
    rw [hmod]
    rfl
  · rfl

end E9Patch.Rpc
