import E9Patch.Fallible
import E9Patch.JsonModel

/-!
Parameters that are not known are skipped: the reader takes exactly the tokens of one value, of every value
that has no `null` in it. Here the tokens are those that the reader has made of the text.
-/

namespace E9Patch
open Bytes Numerals Fallible

/-! ### Values -/

/-- A JSON value, as its tokens are read. -/
inductive Json where
  | null
  | bool (b : Bool)
  | number (i : Int)
  | string (s : List UInt8)
  | array (items : List Json)
  | object (members : List (List UInt8 × Json))

mutual

/-- The tokens of a value. -/
def Json.tokens : Json → List Token
  | .null => [.null]
  | .bool b => [.bool b]
  | .number i => [.number i]
  | .string s => [.string s]
  | .array [] => [.symbol 0x5b, .symbol 0x5d]
  | .array (v :: vs) => .symbol 0x5b :: (v.tokens ++ moreItems vs)
  | .object [] => [.symbol 0x7b, .symbol 0x7d]
  | .object ((s, v) :: ms) => .symbol 0x7b :: .string s :: .symbol 0x3a :: (v.tokens ++ moreMembers ms)

/-- The items behind the first one, and the closing bracket. -/
def moreItems : List Json → List Token
  | [] => [.symbol 0x5d]
  | v :: vs => .symbol 0x2c :: (v.tokens ++ moreItems vs)

/-- The members behind the first one, and the closing brace. -/
def moreMembers : List (List UInt8 × Json) → List Token
  | [] => [.symbol 0x7d]
  | (s, v) :: ms => .symbol 0x2c :: .string s :: .symbol 0x3a :: (v.tokens ++ moreMembers ms)

end

/-- The next tokens of a parser, and the parser behind them. -/
def Reads (p : Parser) : List Token → Parser → Prop
  | [], q => q = p
  | t :: ts, q => ∃ r, getToken p = .ok (t, r) ∧ Reads r ts q

/-! ### Skipping -/

mutual

/-- Parse a value, whose tokens are forgotten. -/
def discardValue : Nat → Parser → Except ParseError Parser
  | 0, p => p.fail .fuel
  | fuel + 1, p => do
    let t ← getToken p
    match t.1 with
    | .symbol c =>
      if c = 0x7b then do
        let r ← expectToken2 t.2 0x7d TOKEN_STRING
        if r.1 = .symbol 0x7d then .ok r.2 else discardMembers fuel r.2
      else if c = 0x5b then do
        let r ← peekToken t.2
        if r.1 = .symbol 0x5d then (getToken r.2).map Prod.snd else discardItems fuel r.2
      else t.2.fail (.unexpected "JSON object" c)
    | .bool _ | .number _ | .string _ => .ok t.2
    | .null | .eof => t.2.fail (.unexpected "JSON object" t.1.kind)

/-- The loop over the members of an object, behind a key. -/
def discardMembers : Nat → Parser → Except ParseError Parser
  | 0, p => p.fail .fuel
  | fuel + 1, p => do
    let c ← expectToken p 0x3a
    let q ← discardValue fuel c.2
    let r ← expectToken2 q 0x2c 0x7d
    if r.1 = .symbol 0x7d then .ok r.2
    else do
      let k ← expectToken r.2 TOKEN_STRING
      discardMembers fuel k.2

/-- The loop over the items of an array. -/
def discardItems : Nat → Parser → Except ParseError Parser
  | 0, p => p.fail .fuel
  | fuel + 1, p => do
    let q ← discardValue fuel p
    let r ← expectToken2 q 0x2c 0x5d
    if r.1 = .symbol 0x5d then .ok r.2 else discardItems fuel r.2

end

/-- Every token but the end of the file takes a character of the stream. -/
def Token.weight : Token → Nat
  | .eof => 0
  | _ => 1

/-- What is still to be read: the characters, and the token that was peeked at. -/
def Parser.size (p : Parser) : Nat := p.stream.length + p.peek.elim 0 Token.weight

/-- Parses and discards a JSON object. -/
def parseAndDiscardObject (p : Parser) : Except ParseError Parser := discardValue (2 * p.size + 1) p

/-! ### Skipping ends -/

/-- A result of size `n` at most, or an error of the reader's. -/
def Consumes {α : Type} (size : α → Nat) (n : Nat) : Except ParseError α → Prop
  | .ok a => size a ≤ n
  | .error e => e.kind ≠ .fuel

theorem Consumes.bind {α β : Type} {size : α → Nat} {size' : β → Nat} {n m : Nat} {x : Except ParseError α}
    {f : α → Except ParseError β} (hx : Consumes size n x) (hf : ∀ a, size a ≤ n → Consumes size' m (f a)) :
    Consumes size' m (x >>= f) := by
  cases x with
  | error e => exact hx
  | ok a => exact hf a hx

theorem Consumes.map {α β : Type} {size : α → Nat} {size' : β → Nat} {n m : Nat} {x : Except ParseError α}
    {f : α → β} (hx : Consumes size n x) (hf : ∀ a, size a ≤ n → size' (f a) ≤ m) :
    Consumes size' m (x.map f) := by
  cases x with
  | error e => exact hx
  | ok a => exact hf a hx

theorem Consumes.mono {α : Type} {size size' : α → Nat} {n m : Nat} {x : Except ParseError α}
    (hx : Consumes size n x) (h : ∀ a, size a ≤ n → size' a ≤ m) : Consumes size' m x := by
  cases x with
  | error e => exact hx
  | ok a => exact h a hx

theorem skipSpaces_length (stream : List UInt8) (lineno : Nat) :
    (skipSpaces stream lineno).1.length ≤ stream.length := by
  induction stream generalizing lineno with
  | nil => exact Nat.le_refl _
  | cons c stream ih =>
      rw [skipSpaces]
      split
      · exact Nat.le_succ_of_le (ih _)
      · exact Nat.le_refl _

theorem readWord_consumes (c : UInt8) (word stream : List UInt8) (lineno : Nat) :
    Consumes List.length stream.length (readWord c word stream lineno) := by
  induction word generalizing stream with
  | nil => exact Nat.le_refl _
  | cons w word ih =>
      cases stream with
      | nil => exact ParseErrorKind.noConfusion
      | cons d stream =>
          rw [readWord]
          split
          · exact (ih stream).mono fun rest h => Nat.le_succ_of_le h
          · exact ParseErrorKind.noConfusion

theorem readDigits_consumes (lineno : Nat) (stream s : List UInt8) :
    Consumes (fun r => r.2.length) stream.length (readDigits lineno stream s) := by
  induction stream generalizing s with
  | nil =>
      rw [readDigits]
      split
      · exact ParseErrorKind.noConfusion
      · exact Nat.le_refl _
  | cons c stream ih =>
      rw [readDigits]
      split
      · exact ParseErrorKind.noConfusion
      · split
        · exact (ih _).mono fun r h => Nat.le_succ_of_le h
        · show List.length (if c = EOF then stream else c :: stream) ≤ stream.length + 1
          split
          · exact Nat.le_succ _
          · exact Nat.le_refl _

theorem readString_consumes (stream : List UInt8) (lineno : Nat) (s : List UInt8) :
    Consumes (fun r => r.2.1.length) stream.length (readString stream lineno s) := by
  induction stream, lineno, s using readString.induct with
  | case3 lineno s h stream =>
      rw [readString.eq_def]
      simp only [if_neg h]
      exact Nat.le_succ _
  | case8 lineno s h d stream hd hu hquote heof ih =>
      have hstep : readString (0x5c :: d :: stream) lineno s =
          readString stream (countLine d lineno) (s ++ [unescape d]) := by
        rw [readString.eq_def]
        simp only [if_neg h, if_neg hquote, if_neg heof, if_pos, if_neg hd, if_neg hu]
      rw [hstep]
      exact ih.mono fun r hr => Nat.le_succ_of_le (Nat.le_succ_of_le hr)
  | case9 lineno s h c stream hquote heof hescape ih =>
      have hstep : readString (c :: stream) lineno s = readString stream (countLine c lineno) (s ++ [c]) := by
        rw [readString.eq_def]
        simp only [if_neg h, if_neg hquote, if_neg heof, if_neg hescape]
      rw [hstep]
      exact ih.mono fun r hr => Nat.le_succ_of_le hr
  | _ =>
      rw [readString.eq_def]
      simp [Consumes, *]

/-- What is left behind a token. -/
theorem readToken_consumes (stream : List UInt8) (lineno : Nat) :
    Consumes (fun r => r.2.1.length + r.1.weight) stream.length (readToken stream lineno) := by
  cases stream with
  | nil => exact Nat.le_refl _
  | cons c stream =>
      rw [readToken]
      by_cases hsymbol : c ∈ symbols
      · rw [if_pos hsymbol]
        exact Nat.le_refl _
      rw [if_neg hsymbol]
      by_cases heof : c = EOF
      · rw [if_pos heof]
        exact Nat.le_succ _
      rw [if_neg heof]
      by_cases ht : c = 0x74
      · rw [if_pos ht]
        exact (readWord_consumes _ _ _ _).map fun rest h => Nat.succ_le_succ h
      rw [if_neg ht]
      by_cases hf : c = 0x66
      · rw [if_pos hf]
        exact (readWord_consumes _ _ _ _).map fun rest h => Nat.succ_le_succ h
      rw [if_neg hf]
      by_cases hn : c = 0x6e
      · rw [if_pos hn]
        exact (readWord_consumes _ _ _ _).map fun rest h => Nat.succ_le_succ h
      rw [if_neg hn]
      split
      · refine (readDigits_consumes lineno stream [c]).bind fun r h => ?_
        split
        · exact ParseErrorKind.noConfusion
        · dsimp only
          split
          · exact ParseErrorKind.noConfusion
          · exact Nat.succ_le_succ h
      · split
        · refine (readString_consumes stream lineno []).bind fun r h => ?_
          exact Nat.succ_le_succ h
        · exact ParseErrorKind.noConfusion

theorem peekToken_consumes (p : Parser) : Consumes (fun r => r.2.size) p.size (peekToken p) := by
  unfold peekToken
  cases hpeek : p.peek with
  | some t => exact Nat.le_refl _
  | none =>
      have hspaces := skipSpaces_length p.stream p.lineno
      refine (readToken_consumes _ _).bind fun r h => ?_
      show r.2.1.length + r.1.weight ≤ p.stream.length + Option.elim p.peek 0 Token.weight
      omega

theorem peekToken_peek {p q : Parser} {t : Token} (h : peekToken p = .ok (t, q)) : q.peek = some t := by
  unfold peekToken at h
  cases hpeek : p.peek with
  | some t' =>
      rw [hpeek] at h
      cases h
      exact hpeek
  | none =>
      rw [hpeek] at h
      obtain ⟨r, -, heq⟩ := bind_ok.mp h
      cases heq
      rfl

theorem getToken_consumes (p : Parser) :
    Consumes (fun r => r.2.size + r.1.weight) p.size (getToken p) := by
  unfold getToken
  cases h : peekToken p with
  | error e =>
      have hsize := peekToken_consumes p
      rw [h] at hsize
      exact hsize
  | ok r =>
      have hsize := peekToken_consumes p
      rw [h] at hsize
      have hpeek := peekToken_peek h
      rw [Consumes, Parser.size, hpeek] at hsize
      exact hsize

theorem expectTokens_consumes (p : Parser) {tokens : List UInt8} (h : EOF ∉ tokens) :
    Consumes (fun r => r.2.size + 1) p.size (expectTokens p tokens) := by
  refine (getToken_consumes p).bind fun r hsize => ?_
  split
  · next hkind =>
    have hweight : r.1.weight = 1 := by
      cases ht : r.1 with
      | eof =>
          rw [ht] at hkind
          exact absurd hkind h
      | _ => rfl
    simpa only [Consumes, hweight] using hsize
  · exact ParseErrorKind.noConfusion

/-- Enough fuel for a value, or for the members or the items of one. -/
theorem discard_consumes (fuel : Nat) : ∀ p : Parser,
    (2 * p.size + 1 ≤ fuel → Consumes (fun q => q.size + 1) p.size (discardValue fuel p)) ∧
    (2 * p.size + 1 ≤ fuel → Consumes Parser.size p.size (discardMembers fuel p)) ∧
    (2 * p.size + 2 ≤ fuel → Consumes Parser.size p.size (discardItems fuel p)) := by
  induction fuel with
  | zero => exact fun p => ⟨by omega, by omega, by omega⟩
  | succ fuel ih =>
      refine fun p => ⟨fun hfuel => ?_, fun hfuel => ?_, fun hfuel => ?_⟩
      · rw [discardValue]
        refine (getToken_consumes p).bind fun t ht => ?_
        rcases t with ⟨t, q⟩
        cases t with
        | symbol c =>
            have hq : q.size + 1 ≤ p.size := ht
            dsimp only
            split
            · refine (expectTokens_consumes q (by decide)).bind fun r hr => ?_
              split
              · exact Nat.le_trans hr (Nat.le_of_succ_le hq)
              · exact ((ih r.2).2.1 (by omega)).mono fun q' hq' => by omega
            · split
              · refine (peekToken_consumes q).bind fun r hr => ?_
                split
                · exact (getToken_consumes r.2).map fun a ha => by omega
                · exact ((ih r.2).2.2 (by omega)).mono fun q' hq' => by omega
              · exact ParseErrorKind.noConfusion
        | eof => exact ParseErrorKind.noConfusion
        | null => exact ParseErrorKind.noConfusion
        | bool b => exact ht
        | number i => exact ht
        | string s => exact ht
      · rw [discardMembers]
        refine (expectTokens_consumes p (by decide)).bind fun c hc => ?_
        refine ((ih c.2).1 (by omega)).bind fun q hq => ?_
        refine (expectTokens_consumes q (by decide)).bind fun r hr => ?_
        split
        · exact show r.2.size ≤ p.size by omega
        · refine (expectTokens_consumes r.2 (by decide)).bind fun k hk => ?_
          exact ((ih k.2).2.1 (by omega)).mono fun q' hq' => by omega
      · rw [discardItems]
        refine ((ih p).1 (by omega)).bind fun q hq => ?_
        refine (expectTokens_consumes q (by decide)).bind fun r hr => ?_
        split
        · exact show r.2.size ≤ p.size by omega
        · exact ((ih r.2).2.2 (by omega)).mono fun q' hq' => by omega

/-! ### What is taken is a value -/

theorem Reads.append {p q r : Parser} {ts us : List Token} (h : Reads p ts q) (h' : Reads q us r) :
    Reads p (ts ++ us) r := by
  induction ts generalizing p with
  | nil =>
      cases h
      exact h'
  | cons t ts ih =>
      obtain ⟨s, hget, hs⟩ := h
      exact ⟨s, hget, ih hs⟩

theorem Reads.split {p r : Parser} {ts us : List Token} (h : Reads p (ts ++ us) r) :
    ∃ q, Reads p ts q ∧ Reads q us r := by
  induction ts generalizing p with
  | nil => exact ⟨p, rfl, h⟩
  | cons t ts ih =>
      obtain ⟨s, hget, hs⟩ := h
      obtain ⟨q, hq, hr⟩ := ih hs
      exact ⟨q, ⟨s, hget, hq⟩, hr⟩

/-- Behind a peek, the same tokens are read. -/
theorem getToken_peeked {p q : Parser} {t : Token} (h : peekToken p = .ok (t, q)) : getToken q = getToken p := by
  have hq : peekToken q = .ok (t, q) := by
    unfold peekToken
    rw [peekToken_peek h]
  rw [getToken, getToken, hq, h]

theorem getToken_of_peek {p q : Parser} {t : Token} (h : peekToken p = .ok (t, q)) :
    getToken p = .ok (t, { q with peek := none }) := by
  rw [getToken, h]
  rfl

theorem Json.tokens_head (v : Json) : ∃ t ts, v.tokens = t :: ts ∧ t ≠ .symbol 0x5d := by
  cases v with
  | array items => cases items <;> exact ⟨_, _, by rw [Json.tokens], by decide⟩
  | object members => rcases members with _ | ⟨⟨s, v⟩, ms⟩ <;> exact ⟨_, _, by rw [Json.tokens], by decide⟩
  | _ => exact ⟨_, _, by rw [Json.tokens], by simp⟩

theorem reads_peeked {p q r : Parser} {t u : Token} {ts : List Token} (h : peekToken p = .ok (t, q)) :
    Reads q (u :: ts) r ↔ Reads p (u :: ts) r := by
  rw [Reads, Reads, getToken_peeked h]

theorem expectTokens_iff {p q : Parser} {t : Token} {tokens : List UInt8} :
    expectTokens p tokens = .ok (t, q) ↔ getToken p = .ok (t, q) ∧ t.kind ∈ tokens := by
  unfold expectTokens
  rw [bind_ok]
  constructor
  · rintro ⟨r, hr, h⟩
    by_cases hkind : r.1.kind ∈ tokens
    · rw [if_pos hkind] at h
      cases h
      exact ⟨hr, hkind⟩
    · rw [if_neg hkind] at h
      cases h
  · rintro ⟨h, hkind⟩
    exact ⟨_, h, if_pos hkind⟩

/-- Only symbols have the kinds of symbols. -/
theorem Token.kind_symbol {t : Token} {c : UInt8} (hc : c ∈ symbols) (h : t.kind = c) : t = .symbol c := by
  subst h
  cases t with
  | symbol d => rfl
  | eof => exact absurd hc (show EOF ∉ symbols by decide)
  | null => exact absurd hc (show TOKEN_NULL ∉ symbols by decide)
  | bool b => exact absurd hc (show TOKEN_BOOL ∉ symbols by decide)
  | number i => exact absurd hc (show TOKEN_NUMBER ∉ symbols by decide)
  | string s => exact absurd hc (show TOKEN_STRING ∉ symbols by decide)

theorem readToken_symbol {stream : List UInt8} {lineno : Nat} {c : UInt8} {r : List UInt8 × Nat}
    (h : readToken stream lineno = .ok (.symbol c, r)) : c ∈ symbols := by
  cases stream with
  | nil => cases h
  | cons d stream =>
      rw [readToken] at h
      by_cases hsymbol : d ∈ symbols
      · rw [if_pos hsymbol] at h
        cases h
        exact hsymbol
      · rw [if_neg hsymbol] at h
        exfalso
        split_ifs at h
        · cases h
        · obtain ⟨a, -, ha⟩ := map_ok.mp h
          cases ha
        · obtain ⟨a, -, ha⟩ := map_ok.mp h
          cases ha
        · obtain ⟨a, -, ha⟩ := map_ok.mp h
          cases ha
        · obtain ⟨a, -, ha⟩ := bind_ok.mp h
          dsimp only at ha
          split_ifs at ha
          cases ha
        · obtain ⟨a, -, ha⟩ := bind_ok.mp h
          cases ha

theorem getToken_peek {p q : Parser} {t : Token} (h : getToken p = .ok (t, q)) : q.peek = none := by
  obtain ⟨r, -, heq⟩ := bind_ok.mp h
  cases heq
  rfl

/-- A string that is expected behind another token is one. -/
theorem expectTokens_string {p q r : Parser} {t u : Token} {tokens : List UInt8} (hp : getToken p = .ok (t, q))
    (h : expectTokens q tokens = .ok (u, r)) (hkind : u.kind = TOKEN_STRING) : ∃ s, u = .string s := by
  cases u with
  | string s => exact ⟨s, rfl⟩
  | symbol c =>
      exfalso
      obtain ⟨hget, -⟩ := expectTokens_iff.mp h
      obtain ⟨v, hv, heq⟩ := bind_ok.mp hget
      unfold peekToken at hv
      rw [getToken_peek hp] at hv
      obtain ⟨w, hw, heq'⟩ := bind_ok.mp hv
      cases heq'
      obtain ⟨hc, -⟩ := Prod.mk.inj (Except.ok.inj heq)
      have hmem : c ∈ symbols := readToken_symbol (by rw [hw, ← hc])
      rw [show c = TOKEN_STRING from hkind] at hmem
      exact absurd hmem (by decide)
  | _ => cases hkind

theorem expectToken2_comma {p q : Parser} {t : Token} {c : UInt8} (hc : c ∈ symbols)
    (h : expectToken2 p 0x2c c = .ok (t, q)) :
    getToken p = .ok (t, q) ∧ (t = .symbol c ∨ t = .symbol 0x2c) := by
  obtain ⟨hget, hkind⟩ := expectTokens_iff.mp h
  refine ⟨hget, ?_⟩
  rcases List.mem_cons.mp hkind with hk | hk
  · exact Or.inr (Token.kind_symbol (by decide) hk)
  · exact Or.inl (Token.kind_symbol hc (List.mem_singleton.mp hk))

/-- What is skipped is a value that has no `null` in it. -/
theorem discard_reads (fuel : Nat) : ∀ p q : Parser,
    (discardValue fuel p = .ok q → ∃ v : Json, Reads p v.tokens q ∧ .null ∉ v.tokens) ∧
    (discardMembers fuel p = .ok q → ∃ (v : Json) (ms : List (List UInt8 × Json)),
      Reads p (.symbol 0x3a :: (v.tokens ++ moreMembers ms)) q ∧ .null ∉ v.tokens ++ moreMembers ms) ∧
    (discardItems fuel p = .ok q → ∃ (v : Json) (vs : List Json),
      Reads p (v.tokens ++ moreItems vs) q ∧ .null ∉ v.tokens ++ moreItems vs) := by
  induction fuel with
  | zero => exact fun p q => ⟨fun h => (nomatch h), fun h => (nomatch h), fun h => (nomatch h)⟩
  | succ fuel ih =>
      refine fun p q => ⟨fun h => ?_, fun h => ?_, fun h => ?_⟩
      · rw [discardValue, bind_ok] at h
        obtain ⟨⟨t, p₁⟩, hget, h⟩ := h
        cases t with
        | eof => cases h
        | null => cases h
        | bool b =>
            cases h
            exact ⟨.bool b, ⟨_, hget, rfl⟩, by simp [Json.tokens]⟩
        | number i =>
            cases h
            exact ⟨.number i, ⟨_, hget, rfl⟩, by simp [Json.tokens]⟩
        | string s =>
            cases h
            exact ⟨.string s, ⟨_, hget, rfl⟩, by simp [Json.tokens]⟩
        | symbol c =>
            dsimp only at h
            by_cases hobject : c = 0x7b
            · subst hobject
              rw [if_pos rfl, bind_ok] at h
              obtain ⟨⟨u, p₂⟩, hexpect, h⟩ := h
              obtain ⟨hget₂, hkind⟩ := expectTokens_iff.mp hexpect
              by_cases hclose : u = .symbol 0x7d
              · subst hclose
                rw [if_pos rfl] at h
                cases h
                exact ⟨.object [], ⟨_, hget, _, hget₂, rfl⟩, by simp [Json.tokens]⟩
              · rw [if_neg hclose] at h
                have hstring : u.kind = TOKEN_STRING := by
                  rcases List.mem_cons.mp hkind with hk | hk
                  · exact absurd (Token.kind_symbol (by decide) hk) hclose
                  · exact List.mem_singleton.mp hk
                obtain ⟨s, rfl⟩ := expectTokens_string hget hexpect hstring
                obtain ⟨v, ms, hreads, hnull⟩ := (ih _ _).2.1 h
                refine ⟨.object ((s, v) :: ms), ⟨_, hget, _, hget₂, hreads⟩, ?_⟩
                simpa [Json.tokens] using hnull
            · rw [if_neg hobject] at h
              by_cases harray : c = 0x5b
              · subst harray
                rw [if_pos rfl, bind_ok] at h
                obtain ⟨⟨u, p₂⟩, hpeek, h⟩ := h
                by_cases hclose : u = .symbol 0x5d
                · subst hclose
                  rw [if_pos rfl, map_ok] at h
                  obtain ⟨r, hr, rfl⟩ := h
                  rw [getToken_peeked hpeek, getToken_of_peek hpeek] at hr
                  cases hr
                  exact ⟨.array [], ⟨_, hget, _, getToken_of_peek hpeek, rfl⟩, by simp [Json.tokens]⟩
                · rw [if_neg hclose] at h
                  obtain ⟨v, vs, hreads, hnull⟩ := (ih _ _).2.2 h
                  obtain ⟨u', us, hhead, -⟩ := v.tokens_head
                  refine ⟨.array (v :: vs), ⟨_, hget, ?_⟩, by simpa [Json.tokens] using hnull⟩
                  rw [hhead, List.cons_append] at hreads ⊢
                  exact (reads_peeked hpeek).mp hreads
              · rw [if_neg harray] at h
                cases h
      · rw [discardMembers, bind_ok] at h
        obtain ⟨⟨c, p₁⟩, hcolon, h⟩ := h
        obtain ⟨hget, hkind⟩ := expectTokens_iff.mp hcolon
        obtain rfl := Token.kind_symbol (by decide) (List.mem_singleton.mp hkind)
        obtain ⟨p₂, hvalue, h⟩ := bind_ok.mp h
        obtain ⟨v, hv, hnull⟩ := (ih _ _).1 hvalue
        obtain ⟨⟨u, p₃⟩, hexpect, h⟩ := bind_ok.mp h
        obtain ⟨hget₃, rfl | rfl⟩ := expectToken2_comma (by decide) hexpect
        · rw [if_pos rfl] at h
          cases h
          refine ⟨v, [], ⟨_, hget, hv.append ⟨_, hget₃, rfl⟩⟩, by simpa [moreMembers] using hnull⟩
        · rw [if_neg (show ¬(Token.symbol 0x2c = .symbol 0x7d) by decide)] at h
          obtain ⟨⟨k, p₄⟩, hkey, h⟩ := bind_ok.mp h
          obtain ⟨hget₄, hkind₄⟩ := expectTokens_iff.mp hkey
          obtain ⟨s, rfl⟩ := expectTokens_string hget₃ hkey (List.mem_singleton.mp hkind₄)
          obtain ⟨w, ms, hreads, hnull'⟩ := (ih _ _).2.1 h
          refine ⟨v, (s, w) :: ms, ⟨_, hget, hv.append ⟨_, hget₃, _, hget₄, hreads⟩⟩, ?_⟩
          simp only [moreMembers, List.mem_append, List.mem_cons, not_or] at hnull' ⊢
          exact ⟨hnull, by decide, by simp, by decide, hnull'⟩
      · rw [discardItems, bind_ok] at h
        obtain ⟨p₂, hvalue, h⟩ := h
        obtain ⟨v, hv, hnull⟩ := (ih _ _).1 hvalue
        obtain ⟨⟨u, p₃⟩, hexpect, h⟩ := bind_ok.mp h
        obtain ⟨hget₃, rfl | rfl⟩ := expectToken2_comma (by decide) hexpect
        · rw [if_pos rfl] at h
          cases h
          exact ⟨v, [], hv.append ⟨_, hget₃, rfl⟩, by simpa [moreItems] using hnull⟩
        · rw [if_neg (show ¬(Token.symbol 0x2c = .symbol 0x5d) by decide)] at h
          obtain ⟨w, vs, hreads, hnull'⟩ := (ih _ _).2.2 h
          refine ⟨v, w :: vs, hv.append ⟨_, hget₃, hreads⟩, ?_⟩
          simp only [moreItems, List.mem_append, List.mem_cons, not_or] at hnull' ⊢
          exact ⟨hnull, by decide, hnull'⟩

/-! ### Every value is taken -/

/-- The tokens `ts` are skipped, unless a `null` is among them. -/
def Discards (ts : List Token) (q : Parser) (r : Except ParseError Parser) : Prop :=
  (.null ∉ ts → r = .ok q) ∧
    (.null ∈ ts → ∃ lineno, r = .error ⟨lineno, .unexpected "JSON object" TOKEN_NULL⟩)

theorem Discards.cons {t : Token} {ts : List Token} {q : Parser} {r : Except ParseError Parser}
    (h : Discards ts q r) (ht : t ≠ .null) : Discards (t :: ts) q r := by
  unfold Discards
  rwa [List.mem_cons, or_iff_right (Ne.symm ht)]

theorem Discards.bind {ts us : List Token} {q q' : Parser} {r : Except ParseError Parser}
    {f : Parser → Except ParseError Parser} (hr : Discards ts q r) (hf : Discards us q' (f q)) :
    Discards (ts ++ us) q' (r >>= f) := by
  by_cases hnull : .null ∈ ts
  · obtain ⟨lineno, rfl⟩ := hr.2 hnull
    exact ⟨fun hno => absurd (List.mem_append_left _ hnull) hno, fun _ => ⟨lineno, rfl⟩⟩
  · rw [hr.1 hnull]
    unfold Discards
    rw [List.mem_append, or_iff_right hnull]
    exact hf

theorem discards_ok {t : Token} {q : Parser} (ht : t ≠ .null) : Discards [t] q (.ok q) :=
  ⟨fun _ => rfl, fun h => absurd (List.mem_singleton.mp h).symm ht⟩

theorem exists_succ {n fuel : Nat} (h : n + 1 ≤ fuel) : ∃ k, fuel = k + 1 ∧ n ≤ k :=
  ⟨fuel - 1, by omega, by omega⟩

/-- A comma, or what closes. -/
theorem expectToken2_of {p q : Parser} {c d : UInt8} (h : getToken p = .ok (.symbol d, q)) (hd : d = 0x2c ∨ d = c) :
    expectToken2 p 0x2c c = .ok (.symbol d, q) := by
  refine expectTokens_iff.mpr ⟨h, ?_⟩
  rcases hd with rfl | rfl
  · exact List.mem_cons_self
  · exact List.mem_cons_of_mem _ List.mem_cons_self

mutual

/-- Every value is skipped, unless there is a `null` in it. -/
theorem discardValue_reads : (v : Json) → ∀ (p q : Parser) (fuel : Nat), Reads p v.tokens q →
    v.tokens.length ≤ fuel → Discards v.tokens q (discardValue fuel p)
  | .null => by
      intro p q fuel h hfuel
      obtain ⟨fuel, rfl, -⟩ := exists_succ hfuel
      obtain ⟨r, hget, rfl⟩ := h
      refine ⟨fun hno => absurd (List.mem_singleton_self _) hno, fun _ => ⟨q.lineno, ?_⟩⟩
      rw [discardValue, hget]
      rfl
  | .bool b => by
      intro p q fuel h hfuel
      obtain ⟨fuel, rfl, -⟩ := exists_succ hfuel
      obtain ⟨r, hget, rfl⟩ := h
      rw [discardValue, hget]
      exact discards_ok Token.noConfusion
  | .number i => by
      intro p q fuel h hfuel
      obtain ⟨fuel, rfl, -⟩ := exists_succ hfuel
      obtain ⟨r, hget, rfl⟩ := h
      rw [discardValue, hget]
      exact discards_ok Token.noConfusion
  | .string s => by
      intro p q fuel h hfuel
      obtain ⟨fuel, rfl, -⟩ := exists_succ hfuel
      obtain ⟨r, hget, rfl⟩ := h
      rw [discardValue, hget]
      exact discards_ok Token.noConfusion
  | .array [] => by
      intro p q fuel h hfuel
      obtain ⟨fuel, rfl, -⟩ := exists_succ hfuel
      obtain ⟨r, hget, r', hget', rfl⟩ := h
      obtain ⟨⟨t, s⟩, hpeek, heq⟩ := bind_ok.mp hget'
      cases heq
      rw [discardValue, hget]
      refine Discards.cons ?_ Token.noConfusion
      show Discards _ _ (peekToken r >>= _)
      rw [hpeek]
      show Discards _ _ ((getToken s).map Prod.snd)
      rw [getToken_peeked hpeek, hget']
      exact discards_ok Token.noConfusion
  | .array (v :: vs) => by
      intro p q fuel h hfuel
      obtain ⟨fuel, rfl, hfuel⟩ := exists_succ hfuel
      rw [Json.tokens] at h ⊢
      obtain ⟨r, hget, hr⟩ := h
      have hlen : (v.tokens ++ moreItems vs).length ≤ fuel := by
        rw [Json.tokens] at hfuel
        exact Nat.le_of_succ_le_succ hfuel
      rw [List.length_append] at hlen
      obtain ⟨t, ts, hhead, ht⟩ := v.tokens_head
      have hitems : 1 ≤ v.tokens.length := by
        rw [hhead]
        exact Nat.succ_pos _
      have hmore : 1 ≤ (moreItems vs).length := by
        cases vs <;> simp [moreItems]
      obtain ⟨fuel, rfl⟩ : ∃ k, fuel = k + 1 := ⟨fuel - 1, by omega⟩
      rw [discardValue, hget]
      refine Discards.cons ?_ Token.noConfusion
      rw [hhead, List.cons_append] at hr
      obtain ⟨u, hu, hrest⟩ := hr
      obtain ⟨⟨t', s⟩, hpeek, heq⟩ := bind_ok.mp hu
      obtain rfl : t' = t := congrArg Prod.fst (Except.ok.inj heq)
      have hs : Reads s (v.tokens ++ moreItems vs) q := by
        rw [hhead, List.cons_append]
        exact (reads_peeked hpeek).mpr ⟨u, hu, hrest⟩
      show Discards _ _ (peekToken r >>= _)
      rw [hpeek]
      show Discards _ _ (if t' = .symbol 0x5d then _ else discardItems (fuel + 1) s)
      rw [if_neg ht, discardItems]
      obtain ⟨w, hv, hw⟩ := hs.split
      exact (discardValue_reads v _ _ _ hv (by omega)).bind (discardItems_reads vs _ _ _ hw (by omega))
  | .object [] => by
      intro p q fuel h hfuel
      obtain ⟨fuel, rfl, -⟩ := exists_succ hfuel
      obtain ⟨r, hget, r', hget', rfl⟩ := h
      rw [discardValue, hget]
      refine Discards.cons ?_ Token.noConfusion
      show Discards _ _ (expectToken2 r 0x7d TOKEN_STRING >>= _)
      rw [show expectToken2 r 0x7d TOKEN_STRING = .ok (.symbol 0x7d, q) from
        expectTokens_iff.mpr ⟨hget', List.mem_cons_self⟩]
      exact discards_ok Token.noConfusion
  | .object ((s, v) :: ms) => by
      intro p q fuel h hfuel
      obtain ⟨fuel, rfl, hfuel⟩ := exists_succ hfuel
      rw [Json.tokens] at h ⊢
      obtain ⟨r, hget, r', hget', r'', hget'', hr⟩ := h
      have hlen : (v.tokens ++ moreMembers ms).length + 2 ≤ fuel := by
        rw [Json.tokens] at hfuel
        exact Nat.le_of_succ_le_succ hfuel
      rw [List.length_append] at hlen
      obtain ⟨fuel, rfl⟩ : ∃ k, fuel = k + 1 := ⟨fuel - 1, by omega⟩
      rw [discardValue, hget]
      refine Discards.cons (Discards.cons (Discards.cons ?_ Token.noConfusion) Token.noConfusion)
        Token.noConfusion
      show Discards _ _ (expectToken2 r 0x7d TOKEN_STRING >>= _)
      rw [show expectToken2 r 0x7d TOKEN_STRING = .ok (.string s, r') from
        expectTokens_iff.mpr ⟨hget', List.mem_cons_of_mem _ List.mem_cons_self⟩]
      show Discards _ _ (discardMembers (fuel + 1) r')
      rw [discardMembers, show expectToken r' 0x3a = .ok (.symbol 0x3a, r'') from
        expectTokens_iff.mpr ⟨hget'', List.mem_cons_self⟩]
      obtain ⟨w, hv, hw⟩ := hr.split
      exact (discardValue_reads v _ _ _ hv (by omega)).bind (discardMembers_reads ms _ _ _ hw (by omega))

theorem discardItems_reads : (vs : List Json) → ∀ (p q : Parser) (fuel : Nat), Reads p (moreItems vs) q →
    (moreItems vs).length ≤ fuel → Discards (moreItems vs) q (do
      let r ← expectToken2 p 0x2c 0x5d
      if r.1 = .symbol 0x5d then .ok r.2 else discardItems fuel r.2)
  | [] => by
      intro p q fuel h _
      obtain ⟨r, hget, rfl⟩ := h
      rw [expectToken2_of hget (Or.inr rfl)]
      exact discards_ok Token.noConfusion
  | v :: vs => by
      intro p q fuel h hfuel
      rw [moreItems] at h hfuel ⊢
      obtain ⟨fuel, rfl, hlen⟩ := exists_succ hfuel
      obtain ⟨r, hget, hr⟩ := h
      rw [expectToken2_of hget (Or.inl rfl)]
      refine Discards.cons ?_ Token.noConfusion
      show Discards _ _ (discardItems (fuel + 1) r)
      rw [discardItems]
      rw [List.length_append] at hlen
      obtain ⟨w, hv, hw⟩ := hr.split
      exact (discardValue_reads v _ _ _ hv (by omega)).bind (discardItems_reads vs _ _ _ hw (by omega))

theorem discardMembers_reads : (ms : List (List UInt8 × Json)) → ∀ (p q : Parser) (fuel : Nat),
    Reads p (moreMembers ms) q → (moreMembers ms).length ≤ fuel → Discards (moreMembers ms) q (do
      let r ← expectToken2 p 0x2c 0x7d
      if r.1 = .symbol 0x7d then .ok r.2
      else do
        let k ← expectToken r.2 TOKEN_STRING
        discardMembers fuel k.2)
  | [] => by
      intro p q fuel h _
      obtain ⟨r, hget, rfl⟩ := h
      rw [expectToken2_of hget (Or.inr rfl)]
      exact discards_ok Token.noConfusion
  | (s, v) :: ms => by
      intro p q fuel h hfuel
      rw [moreMembers] at h hfuel ⊢
      obtain ⟨fuel, rfl, hlen⟩ := exists_succ hfuel
      obtain ⟨r, hget, r', hget', r'', hget'', hr⟩ := h
      rw [expectToken2_of hget (Or.inl rfl)]
      refine Discards.cons (Discards.cons (Discards.cons ?_ Token.noConfusion) Token.noConfusion)
        Token.noConfusion
      show Discards _ _ (expectToken r TOKEN_STRING >>= _)
      rw [show expectToken r TOKEN_STRING = .ok (.string s, r') from
        expectTokens_iff.mpr ⟨hget', List.mem_cons_self⟩]
      show Discards _ _ (discardMembers (fuel + 1) r')
      rw [discardMembers, show expectToken r' 0x3a = .ok (.symbol 0x3a, r'') from
        expectTokens_iff.mpr ⟨hget'', List.mem_cons_self⟩]
      simp only [List.length_cons, List.length_append] at hlen
      obtain ⟨w, hv, hw⟩ := hr.split
      exact (discardValue_reads v _ _ _ hv (by omega)).bind (discardMembers_reads ms _ _ _ hw (by omega))

end

/-! ### Skipping a parameter -/

/-- No token of a value is the end of the file, so that its tokens are characters of the stream. -/
theorem Reads.size {p q : Parser} {ts : List Token} (h : Reads p ts q) (hts : .eof ∉ ts) :
    ts.length + q.size ≤ p.size := by
  induction ts generalizing p with
  | nil =>
      cases h
      exact Nat.le_of_eq (Nat.zero_add _)
  | cons t ts ih =>
      obtain ⟨r, hget, hr⟩ := h
      rw [List.mem_cons, not_or] at hts
      have hsize := getToken_consumes p
      rw [hget] at hsize
      have hweight : t.weight = 1 := by
        cases t with
        | eof => exact absurd rfl hts.1
        | _ => rfl
      have hstep : r.size + t.weight ≤ p.size := hsize
      have hrest := ih hr hts.2
      rw [List.length_cons]
      omega

mutual

theorem Json.eof_not_mem : (v : Json) → Token.eof ∉ v.tokens
  | .null | .bool _ | .number _ | .string _ => by simp [Json.tokens]
  | .array [] | .object [] => by simp [Json.tokens]
  | .array (v :: vs) => by simp [Json.tokens, v.eof_not_mem, eof_not_mem_items vs]
  | .object ((s, v) :: ms) => by simp [Json.tokens, v.eof_not_mem, eof_not_mem_members ms]

theorem eof_not_mem_items : (vs : List Json) → Token.eof ∉ moreItems vs
  | [] => by simp [moreItems]
  | v :: vs => by simp [moreItems, v.eof_not_mem, eof_not_mem_items vs]

theorem eof_not_mem_members : (ms : List (List UInt8 × Json)) → Token.eof ∉ moreMembers ms
  | [] => by simp [moreMembers]
  | (s, v) :: ms => by simp [moreMembers, v.eof_not_mem, eof_not_mem_members ms]

end

/-- In front of the tokens of a value, exactly these tokens are skipped if and only if there is no `null` among them. -/
theorem discard_tokens {p q : Parser} {v : Json} (h : Reads p v.tokens q) :
    parseAndDiscardObject p = .ok q ↔ .null ∉ v.tokens := by
  have hsize := h.size v.eof_not_mem
  have hdiscards := discardValue_reads v p q (2 * p.size + 1) h (by omega)
  refine ⟨fun hok hnull => ?_, hdiscards.1⟩
  obtain ⟨lineno, herror⟩ := hdiscards.2 hnull
  rw [parseAndDiscardObject, herror] at hok
  cases hok

/-- What is skipped are the tokens of a value. -/
theorem reads_of_discard {p q : Parser} (h : parseAndDiscardObject p = .ok q) :
    ∃ v : Json, Reads p v.tokens q ∧ .null ∉ v.tokens :=
  (discard_reads _ p q).1 h

/-- In front of tokens that are not those of any value, an error of the reader is returned. -/
theorem discard_refuses {p : Parser} (h : ¬∃ (v : Json) (q : Parser), Reads p v.tokens q) :
    ∃ e, parseAndDiscardObject p = .error e ∧ e.kind ≠ .fuel := by
  have hconsumes := (discard_consumes (2 * p.size + 1) p).1 (Nat.le_refl _)
  rw [← parseAndDiscardObject] at hconsumes
  cases hresult : parseAndDiscardObject p with
  | ok q =>
      obtain ⟨v, hv, -⟩ := reads_of_discard hresult
      exact absurd ⟨v, q, hv⟩ h
  | error e =>
      rw [hresult] at hconsumes
      exact ⟨e, rfl, hconsumes⟩

end E9Patch
