import E9Patch.RpcTemplates

/-!
Parameters on the wire. A parameter that is sent has a text and the value that it is read back as, which for templates
depends on the cache; an object of such parameters is read back in their order, as long as there are not too many.
-/

namespace E9Patch.Rpc
open Bytes Numerals Fallible
open E9Tool

/-! ### Objects of parameters -/

/-- A parameter that is sent: its name, its text, and what the backend makes of it with its cache. -/
structure Sent where
  name : String
  text : List UInt8
  value : List ParsedTrampoline → ParamValue × List ParsedTrampoline

def Sent.param (f : Sent) : ParamName := parseParamName (ascii f.name)

/-- The parameter is one of the method's, and its text is read as its value with every cache that meets `P`, which the
cache behind it meets again. -/
structure Sent.Reads (P : List ParsedTrampoline → Prop) (method : Method) (f : Sent) : Prop where
  plain : plainName f.name = true
  valid : validateParam method f.param = true
  value : ∀ (rest : List UInt8) (lineno : Nat) (cache : List ParsedTrampoline), P cache → EndsNumber rest →
    parseParam (.at (f.text ++ rest) lineno) cache f.param = .ok ((f.value cache).1, (f.value cache).2, .at rest lineno)
  keeps : ∀ cache, P cache → P (f.value cache).2

/-- Parameters with their separators. -/
def sendFields : Bool → List Sent → List UInt8
  | _, [] => []
  | prev, f :: fields => (if prev then ascii "," else []) ++ (sendParamHeader f.name ++ f.text) ++ sendFields true fields

/-- What the backend makes of the parameters, and its cache. -/
def receiveFields : List ParsedTrampoline → List Sent → List Param × List ParsedTrampoline
  | cache, [] => ([], cache)
  | cache, f :: fields =>
    let v := f.value cache
    let r := receiveFields v.2 fields
    (⟨f.param, v.1⟩ :: r.1, r.2)

theorem sendFields_length (prev : Bool) (fields : List Sent) : fields.length ≤ (sendFields prev fields).length := by
  induction fields generalizing prev with
  | nil => exact Nat.zero_le _
  | cons f fields ih =>
      have := ih true
      have hquote : (ascii "\"").length = 1 := rfl
      simp only [sendFields, sendParamHeader, List.length_append, List.length_cons]
      omega

theorem endsNumber_fields (fields : List Sent) (rest : List UInt8) :
    EndsNumber (sendFields true fields ++ 0x7d :: rest) := by
  cases fields with
  | nil => exact endsNumber_symbol (by decide) rest
  | cons f fields => exact endsNumber_symbol (c := 0x2c) (by decide) _

theorem sendParamHeader_text {name : String} (h : plainName name = true) (rest : List UInt8) :
    sendParamHeader name ++ rest = sendString (ascii name) ++ 0x3a :: rest := by
  rw [← sendName name h]
  simp [sendParamHeader, ascii]

/-- What the loop returns for the parameters so far and those that follow. -/
def objectResult (params : List Param) (cache : List ParsedTrampoline) (fields : List Sent) (p : Parser) :
    Except MessageError (List Param × Rest) :=
  if params.length + fields.length ≤ PARAM_MAX then
    .ok (params ++ (receiveFields cache fields).1, (receiveFields cache fields).2, p)
  else .error ⟨p.lineno, .params⟩

section
variable {P : List ParsedTrampoline → Prop}

theorem receiveFields_keeps {method : Method} {fields : List Sent} (hfields : ∀ f ∈ fields, f.Reads P method)
    {cache : List ParsedTrampoline} (hcache : P cache) : P (receiveFields cache fields).2 := by
  induction fields generalizing cache with
  | nil => exact hcache
  | cons f fields ih =>
      obtain ⟨hf, hfields⟩ := List.forall_mem_cons.mp hfields
      exact ih hfields (hf.keeps cache hcache)

/-- The loop over the parameters, with the name of the first of them read. -/
theorem parseParamsFrom_fields {method : Method} {f : Sent} {fields : List Sent} (hf : f.Reads P method)
    (hfields : ∀ g ∈ fields, g.Reads P method) {fuel : Nat} (hfuel : fields.length + 1 ≤ fuel) (rest : List UInt8)
    (lineno : Nat) {cache : List ParsedTrampoline} (hcache : P cache) {params : List Param}
    (hparams : params.length ≤ PARAM_MAX) :
    parseParamsFrom method fuel (ascii f.name) (.at (0x3a :: (f.text ++ (sendFields true fields ++ 0x7d :: rest))) lineno)
      cache params = objectResult params cache (f :: fields) (.at rest lineno) := by
  induction fields generalizing f fuel cache params with
  | nil =>
      obtain ⟨fuel, rfl⟩ : ∃ n, fuel = n + 1 := ⟨fuel - 1, by omega⟩
      have hvalue := hf.value (0x7d :: rest) lineno cache hcache (endsNumber_symbol (by decide) rest)
      have hvalid : validateParam method (parseParamName (ascii f.name)) = true := hf.valid
      rw [parseParamsFrom]
      simp only [expectToken_symbol (c := 0x3a) (by decide), lift_ok, ok_bind]
      rw [if_neg (by simp [hvalid]), show sendFields true [] ++ 0x7d :: rest = 0x7d :: rest from rfl,
        show parseParamName (ascii f.name) = f.param from rfl, hvalue]
      simp only [ok_bind]
      unfold objectResult
      by_cases hmax : params.length ≥ PARAM_MAX
      · rw [if_pos hmax, if_neg (by simp only [List.length_singleton]; omega)]
        rfl
      · rw [if_neg hmax, if_pos (by simp only [List.length_singleton]; omega)]
        simp only [ok_bind, expectToken2_first (c := 0x7d) (by decide) 0x2c rest lineno, lift_ok, if_true]
        rfl
  | cons g fields ih =>
      obtain ⟨fuel, rfl⟩ : ∃ n, fuel = n + 1 := ⟨fuel - 1, by omega⟩
      have hg := hfields g List.mem_cons_self
      have htext : sendFields true (g :: fields) ++ 0x7d :: rest = 0x2c :: (sendString (ascii g.name) ++
          0x3a :: (g.text ++ (sendFields true fields ++ 0x7d :: rest))) := by
        have hheader := sendParamHeader_text hg.plain (g.text ++ (sendFields true fields ++ 0x7d :: rest))
        rw [← hheader]
        simp [sendFields, ascii]
      have hvalue := hf.value (sendFields true (g :: fields) ++ 0x7d :: rest) lineno cache hcache
        (endsNumber_fields _ rest)
      have hvalid : validateParam method (parseParamName (ascii f.name)) = true := hf.valid
      rw [parseParamsFrom]
      simp only [expectToken_symbol (c := 0x3a) (by decide), lift_ok, ok_bind]
      rw [if_neg (by simp [hvalid]), show parseParamName (ascii f.name) = f.param from rfl, hvalue]
      simp only [ok_bind]
      by_cases hmax : params.length ≥ PARAM_MAX
      · rw [if_pos hmax]
        unfold objectResult
        rw [if_neg (by simp only [List.length_cons]; omega)]
        rfl
      · rw [if_neg hmax, htext, expectToken2_second (c := 0x2c) (by decide) 0x7d _ lineno]
        simp only [ok_bind, lift_ok]
        rw [if_neg (by decide), expectToken2_string_first (plainName_sendable hg.plain)]
        simp only [ok_bind, lift_ok]
        rw [ih hg (fun k hk => hfields k (List.mem_cons_of_mem _ hk)) (by simp only [List.length_cons] at hfuel; omega)
          (hf.keeps cache hcache) (by simp only [List.length_append, List.length_singleton]; omega)]
        unfold objectResult
        simp only [List.length_append, List.length_cons, List.length_nil, receiveFields]
        rw [show params.length + (0 + 1) + (fields.length + 1) = params.length + (fields.length + 1 + 1) by omega]
        simp

/-- **Parameters.** An object of parameters of the method is read back, unless it has more than eight. -/
theorem parseParams_fields {method : Method} {fields : List Sent} (hfields : ∀ f ∈ fields, f.Reads P method)
    (rest : List UInt8) (lineno : Nat) {cache : List ParsedTrampoline} (hcache : P cache) :
    parseParams method (.at (0x7b :: (sendFields false fields ++ 0x7d :: rest)) lineno) cache =
      objectResult [] cache fields (.at rest lineno) := by
  have hlen := sendFields_length false fields
  unfold parseParams
  simp only [expectToken_symbol (c := 0x7b) (by decide), lift_ok, ok_bind]
  cases fields with
  | nil =>
      rw [show sendFields false [] ++ 0x7d :: rest = 0x7d :: rest from rfl,
        expectToken2_first (c := 0x7d) (by decide) TOKEN_STRING rest lineno]
      rfl
  | cons f fields =>
      have hf := hfields f List.mem_cons_self
      have htext : sendFields false (f :: fields) ++ 0x7d :: rest =
          sendString (ascii f.name) ++ 0x3a :: (f.text ++ (sendFields true fields ++ 0x7d :: rest)) := by
        rw [← sendParamHeader_text hf.plain]
        simp [sendFields]
      have hfuel : fields.length + 1 ≤
          (Parser.at (0x7b :: (sendFields false (f :: fields) ++ 0x7d :: rest)) lineno).stream.length + 1 := by
        simp only [Parser.at, List.length_cons, List.length_append] at hlen ⊢
        omega
      generalize hn : (Parser.at (0x7b :: (sendFields false (f :: fields) ++ 0x7d :: rest)) lineno).stream.length + 1 = n
        at hfuel
      rw [htext, expectToken2_string (plainName_sendable hf.plain)]
      simp only [lift_ok, ok_bind]
      exact parseParamsFrom_fields hf (fun g hg => hfields g (List.mem_cons_of_mem _ hg)) hfuel rest lineno hcache
        (Nat.zero_le _)

end

end E9Patch.Rpc
