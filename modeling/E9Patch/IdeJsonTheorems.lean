import Mathlib.Data.List.TakeWhile
import E9Patch.IdeJson

/-!
What the JSON helpers give. The escapes stay in their buffer as long as no character steps over twice the length of the
string, and the reader gives what stands in quotes behind the first place of its pattern.
-/

namespace E9Patch
open Numerals Reader

/-! ### Escapes -/

/-- What a character becomes. -/
def escapeText (c : UInt8) : List UInt8 :=
  match shortEscape c with
  | some e => [0x5C, e]
  | none => if 32 ≤ c ∧ c < 127 then [c] else unicodeEscape c

def escaped (s : List UInt8) : List UInt8 := s.flatMap escapeText

/-- No character of the string leads from below twice its length to above it. -/
def EscapeFits (s : List UInt8) : Prop :=
  ∀ pre c post, s = pre ++ c :: post → (escaped pre).length < 2 * s.length →
    (escaped (pre ++ [c])).length ≤ 2 * s.length

theorem escaped_append (s t : List UInt8) : escaped (s ++ t) = escaped s ++ escaped t := List.flatMap_append

theorem escaped_mono {s t : List UInt8} (h : s <+: t) : (escaped s).length ≤ (escaped t).length := by
  obtain ⟨u, rfl⟩ := h
  rw [escaped_append, List.length_append]
  exact Nat.le_add_right _ _

theorem shortEscape_mem {c e : UInt8} (h : shortEscape c = some e) : e ∈ ascii "\"\\/bfnrt" := by
  unfold shortEscape at h
  split_ifs at h <;> cases h <;> decide

theorem shortEscape_none {c : UInt8} (h : shortEscape c = none) : c ≠ 0x22 ∧ c ≠ 0x5C := by
  constructor
  · rintro rfl
    cases h
  · rintro rfl
    cases h

theorem unicodeEscape_digits (c : UInt8) : ∀ x ∈ [0x30, 0x30, digitByte (c.toNat / 16), digitByte (c.toNat % 16)],
    isDigit 16 x = true := by
  have hdigit : ∀ d < 16, isDigit 16 (digitByte d) = true := by decide
  have hzero : isDigit 16 0x30 = true := by decide
  have hc := c.toNat_lt
  intro x hx
  simp only [List.mem_cons, List.not_mem_nil, or_false] at hx
  rcases hx with rfl | rfl | rfl | rfl
  · exact hzero
  · exact hzero
  · exact hdigit _ (by omega)
  · exact hdigit _ (by omega)

/-- Each character becomes a character of a JSON string. -/
theorem escapeText_char (c : UInt8) : JsonChar (escapeText c) := by
  unfold escapeText
  cases h : shortEscape c with
  | some e => exact .short (shortEscape_mem h)
  | none =>
      obtain ⟨hquote, hback⟩ := shortEscape_none h
      dsimp only
      split
      · rename_i hplain
        exact .plain hplain.1 (Nat.lt_trans hplain.2 (by decide)) hquote hback
      · exact .unicode rfl (unicodeEscape_digits c)

section
variable {out_cap : Nat}

theorem put_ok {b : EscapeBuffer} {c : UInt8} (h : b.pos < out_cap) :
    b.put out_cap c = .ok ⟨b.out ++ [c], b.pos + 1⟩ := if_pos h

/-- One character: the place moves by what the character becomes, and all of it is written if there is room. -/
theorem escapeChar_spec {b : EscapeBuffer} (h : b.pos < out_cap - 2) (c : UInt8) :
    ∃ b', escapeChar out_cap b c = .ok b' ∧ b'.pos = b.pos + (escapeText c).length ∧
      (b'.pos ≤ out_cap - 2 → b'.out = b.out ++ escapeText c) := by
  unfold escapeChar escapeText
  cases shortEscape c with
  | some e =>
      dsimp only
      rw [put_ok (by omega), ok_bind, put_ok (by simp only; omega)]
      exact ⟨_, rfl, rfl, fun _ => by simp⟩
  | none =>
      dsimp only
      split
      · rw [put_ok (by omega)]
        exact ⟨_, rfl, rfl, fun _ => rfl⟩
      · refine ⟨_, rfl, rfl, fun hroom => ?_⟩
        have hlength : (unicodeEscape c).length = 6 := rfl
        simp only [EscapeBuffer.print, hlength] at hroom ⊢
        rw [List.take_of_length_le (by rw [hlength]; omega)]

/-- The loop escapes the characters up to the first one that the limit is reached before. -/
theorem escapeLoop_spec (s : List UInt8) (b : EscapeBuffer) :
    ∃ pre post b', s = pre ++ post ∧ escapeLoop out_cap s b = .ok b' ∧ b'.pos = b.pos + (escaped pre).length ∧
      (b'.pos ≤ out_cap - 2 → b'.out = b.out ++ escaped pre) ∧ (post ≠ [] → out_cap - 2 ≤ b'.pos) ∧
      ∀ p c q, pre = p ++ c :: q → b.pos + (escaped p).length < out_cap - 2 := by
  induction s generalizing b with
  | nil => exact ⟨[], [], b, rfl, rfl, rfl, fun _ => (List.append_nil _).symm, fun h => absurd rfl h, by simp⟩
  | cons c s ih =>
      unfold escapeLoop
      by_cases hroom : b.pos < out_cap - 2
      · obtain ⟨b₁, hb₁, hpos₁, hout₁⟩ := escapeChar_spec hroom c
        obtain ⟨pre, post, b', rfl, hloop, hpos, hout, hpost, hbefore⟩ := ih b₁
        have hcons : escaped (c :: pre) = escapeText c ++ escaped pre := rfl
        rw [if_pos hroom, hb₁, ok_bind]
        refine ⟨c :: pre, post, b', rfl, hloop, ?_, fun hle => ?_, hpost, fun p x q hpre => ?_⟩
        · rw [hpos, hpos₁, hcons, List.length_append, Nat.add_assoc]
        · rw [hout hle, hout₁ (by omega), hcons, List.append_assoc]
        · cases p with
          | nil => exact hroom
          | cons y p =>
              obtain ⟨rfl, hrest⟩ := List.cons.inj hpre
              have hp : escaped (c :: p) = escapeText c ++ escaped p := rfl
              have hlt := hbefore p x q hrest
              rw [hp, List.length_append]
              omega
      · rw [if_neg hroom]
        exact ⟨[], c :: s, b, rfl, rfl, rfl, fun _ => (List.append_nil _).symm, fun _ => by omega, by simp⟩

end

/-- What is escaped: a part of the string from its start. -/
theorem json_escape_spec (s : List UInt8) :
    ∃ pre post, s = pre ++ post ∧ (post ≠ [] → 2 * s.length ≤ (escaped pre).length) ∧
      (∀ p c q, pre = p ++ c :: q → (escaped p).length < 2 * s.length) ∧
      ∀ out, json_escape s = .ok out ↔
        (escaped pre).length ≤ 2 * s.length ∧ out = 0x22 :: escaped pre ++ [0x22] := by
  obtain ⟨pre, post, b, hs, hloop, hpos, hout, hpost, hbefore⟩ :=
    @escapeLoop_spec (s.length * 2 + 3) s ⟨[0x22], 1⟩
  dsimp only at hpos hout hbefore
  refine ⟨pre, post, hs, fun h => ?_, fun p c q hpre => ?_, fun out => ?_⟩
  · have hle := hpost h
    omega
  · have hlt := hbefore p c q hpre
    omega
  · unfold json_escape
    dsimp only
    rw [put_ok (Nat.succ_pos _), ok_bind]
    rw [show (⟨[] ++ [0x22], 0 + 1⟩ : EscapeBuffer) = ⟨[0x22], 1⟩ from rfl, hloop, ok_bind]
    unfold EscapeBuffer.put
    by_cases hfits : (escaped pre).length ≤ 2 * s.length
    · rw [if_pos (by omega), ok_bind, if_pos (by simp only; omega), ok_bind, hout (by omega), Except.ok.injEq]
      exact ⟨fun h => ⟨hfits, h.symm⟩, fun h => h.2.symm⟩
    · refine iff_of_false ?_ fun h => hfits h.1
      by_cases hlast : b.pos < s.length * 2 + 3
      · rw [if_pos hlast, ok_bind, if_neg (by simp only; omega)]
        exact nofun
      · rw [if_neg hlast]
        exact nofun

/-- The escaped string is a literal in its buffer exactly if no character steps over the limit. -/
theorem escape_literal_iff (s : List UInt8) :
    (∃ out, json_escape s = .ok out ∧ IsStringLiteral out) ↔ EscapeFits s := by
  obtain ⟨pre, post, hs, hpost, hbefore, hout⟩ := json_escape_spec s
  constructor
  · rintro ⟨out, hok, -⟩ p c q hp hlt
    have hfits := ((hout out).mp hok).1
    have hstart : p ++ [c] <+: s := ⟨q, by rw [hp, List.append_assoc]; rfl⟩
    rcases Nat.le_total (p ++ [c]).length pre.length with hle | hle
    · exact Nat.le_trans (escaped_mono (List.prefix_of_prefix_length_le hstart ⟨post, hs.symm⟩ hle)) hfits
    · by_cases hlonger : (p ++ [c]).length = pre.length
      · exact Nat.le_trans
          (escaped_mono (List.prefix_of_prefix_length_le hstart ⟨post, hs.symm⟩ (Nat.le_of_eq hlonger))) hfits
      · -- the loop has stopped before this character
        have hpre : pre <+: p := by
          apply List.prefix_of_prefix_length_le (show pre <+: s from ⟨post, hs.symm⟩) ⟨c :: q, hp.symm⟩
          rw [List.length_append, List.length_singleton] at hle hlonger
          omega
        have hstopped := hpost (by
          rintro rfl
          rw [List.append_nil] at hs
          have hlen := hstart.length_le
          rw [hs] at hlen
          omega)
        have hmono := escaped_mono hpre
        omega
  · intro hfits
    have hle : (escaped pre).length ≤ 2 * s.length := by
      rcases List.eq_nil_or_concat pre with rfl | ⟨p, c, rfl⟩
      · exact Nat.zero_le _
      · rw [List.concat_eq_append] at hs hbefore ⊢
        exact hfits p c post (by rw [hs, List.append_assoc]; rfl) (hbefore p c [] rfl)
    refine ⟨_, (hout _).mpr ⟨hle, rfl⟩, pre.map escapeText, ?_, ?_⟩
    · intro x hx
      obtain ⟨c, -, rfl⟩ := List.mem_map.mp hx
      exact escapeText_char c
    · rw [escaped, List.flatMap_def]

/-! ### What is read -/

/-- Characters other than a quote and a backslash, and pairs of a backslash and a character. -/
inductive Paired : List UInt8 → Prop where
  | nil : Paired []
  | plain {c : UInt8} {s : List UInt8} : c ≠ 0x22 → c ≠ 0x5C → Paired s → Paired (c :: s)
  | pair {c : UInt8} {s : List UInt8} : Paired s → Paired (0x5C :: c :: s)

/-- Where paired characters end: at the end of the text, at a quote, or at a last backslash. -/
def EndsPaired (rest : List UInt8) : Prop := (∀ c ∈ rest.head?, c = 0x22) ∨ rest = [0x5C]

theorem EndsPaired.not_plain {c : UInt8} {s : List UInt8} (h : EndsPaired (c :: s)) (hquote : c ≠ 0x22)
    (hback : c ≠ 0x5C) : False := by
  rcases h with h | h
  · exact hquote (h c rfl)
  · exact hback (List.cons.inj h).1

theorem EndsPaired.not_pair {c : UInt8} {s : List UInt8} (h : EndsPaired (0x5C :: c :: s)) : False := by
  rcases h with h | h
  · exact absurd (h _ rfl) (by decide)
  · cases (List.cons.inj h).2

/-- A text has paired characters up to one place only. -/
theorem paired_unique {s t rest rest' : List UInt8} (hs : Paired s) (ht : Paired t) (hrest : EndsPaired rest)
    (hrest' : EndsPaired rest') (heq : s ++ rest = t ++ rest') : s = t ∧ rest = rest' := by
  induction hs generalizing t with
  | nil =>
      cases ht with
      | nil => exact ⟨rfl, heq⟩
      | plain hquote hback _ =>
          rw [List.nil_append] at heq
          exact (EndsPaired.not_plain (heq ▸ hrest) hquote hback).elim
      | pair _ =>
          rw [List.nil_append] at heq
          exact (EndsPaired.not_pair (heq ▸ hrest)).elim
  | plain hquote hback _ ih =>
      cases ht with
      | nil =>
          rw [List.nil_append] at heq
          exact (EndsPaired.not_plain (heq ▸ hrest') hquote hback).elim
      | plain _ _ ht =>
          obtain ⟨rfl, htail⟩ := List.cons.inj heq
          obtain ⟨rfl, rfl⟩ := ih ht htail
          exact ⟨rfl, rfl⟩
      | pair _ => exact absurd (List.cons.inj heq).1 hback
  | pair _ ih =>
      cases ht with
      | nil =>
          rw [List.nil_append] at heq
          exact (EndsPaired.not_pair (heq ▸ hrest')).elim
      | plain _ hback _ => exact absurd (List.cons.inj heq).1.symm hback
      | pair ht =>
          obtain ⟨rfl, htail⟩ := List.cons.inj (List.cons.inj heq).2
          obtain ⟨rfl, rfl⟩ := ih ht htail
          exact ⟨rfl, rfl⟩

/-- The loop stops behind paired characters, and goes on behind the terminator where it stands behind a backslash. -/
theorem stringEnd_spec (t : List UInt8) : ∃ s rest, t = s ++ rest ∧ Paired s ∧
    ((∀ c ∈ rest.head?, c = 0x22) ∧ stringEnd t = .ok s.length ∨
      rest = [0x5C] ∧ stringEnd t = .error .outOfBounds) := by
  induction t using stringEnd.induct with
  | case1 => exact ⟨[], [], rfl, .nil, .inl ⟨nofun, rfl⟩⟩
  | case2 t =>
      refine ⟨[], 0x22 :: t, rfl, .nil, .inl ⟨by simp, ?_⟩⟩
      unfold stringEnd
      exact if_pos rfl
  | case3 hne => exact ⟨[], [0x5C], rfl, .nil, .inr ⟨rfl, rfl⟩⟩
  | case4 c t hne ih =>
      obtain ⟨s, rest, rfl, hs, hend⟩ := ih
      refine ⟨0x5C :: c :: s, rest, rfl, .pair hs, ?_⟩
      unfold stringEnd
      rw [if_neg (by decide), if_pos rfl]
      dsimp only
      rcases hend with ⟨hrest, hok⟩ | ⟨rfl, herror⟩
      · rw [hok]
        exact .inl ⟨hrest, rfl⟩
      · rw [herror]
        exact .inr ⟨rfl, rfl⟩
  | case5 c t hquote hback ih =>
      obtain ⟨s, rest, rfl, hs, hend⟩ := ih
      refine ⟨c :: s, rest, rfl, .plain hquote hback hs, ?_⟩
      unfold stringEnd
      rw [if_neg hquote, if_neg hback]
      rcases hend with ⟨hrest, hok⟩ | ⟨rfl, herror⟩
      · rw [hok]
        exact .inl ⟨hrest, rfl⟩
      · rw [herror]
        exact .inr ⟨rfl, rfl⟩

theorem stringEnd_ok_iff {t : List UInt8} {n : Nat} : stringEnd t = .ok n ↔
    ∃ s rest, t = s ++ rest ∧ s.length = n ∧ Paired s ∧ ∀ c ∈ rest.head?, c = 0x22 := by
  obtain ⟨s, rest, rfl, hs, hend⟩ := stringEnd_spec t
  constructor
  · intro h
    rcases hend with ⟨hrest, hok⟩ | ⟨-, herror⟩
    · cases hok.symm.trans h
      exact ⟨s, rest, rfl, rfl, hs, hrest⟩
    · cases herror.symm.trans h
  · rintro ⟨s', rest', heq, rfl, hs', hrest'⟩
    rcases hend with ⟨hrest, hok⟩ | ⟨rfl, -⟩
    · rw [hok, (paired_unique hs hs' (.inl hrest) (.inl hrest') heq).1]
    · obtain ⟨-, rfl⟩ := paired_unique hs hs' (.inr rfl) (.inl hrest') heq
      exact absurd (hrest' _ rfl) (by decide)

theorem stringEnd_safe_iff {t : List UInt8} : Safe (stringEnd t) ↔ ¬∃ s, t = s ++ [0x5C] ∧ Paired s := by
  obtain ⟨s, rest, rfl, hs, hend⟩ := stringEnd_spec t
  rcases hend with ⟨hrest, hok⟩ | ⟨rfl, herror⟩
  · refine iff_of_true ⟨_, hok⟩ ?_
    rintro ⟨s', heq, hs'⟩
    obtain ⟨-, rfl⟩ := paired_unique hs hs' (.inl hrest) (.inr rfl) heq
    exact absurd (hrest _ rfl) (by decide)
  · refine iff_of_false ?_ fun h => h ⟨s, rfl, hs⟩
    rw [herror]
    exact not_safe_error _

/-- Behind the first place of the pattern, and behind spaces and tabs, there are a quote and `content`. -/
def QuotedAfter (json key content : List UInt8) : Prop :=
  ∃ pre blanks, json = pre ++ keyPattern key ++ blanks ++ 0x22 :: content ∧
    (∀ k < pre.length, ¬keyPattern key <+: json.drop k) ∧ ∀ c ∈ blanks, c = 0x20 ∨ c = 0x09

/-- The first place of a pattern. -/
theorem strstr_eq_some {json pattern t : List UInt8} : strstr json pattern = some t ↔
    ∃ pre, json = pre ++ t ∧ pattern <+: t ∧ ∀ k < pre.length, ¬pattern <+: json.drop k := by
  induction json with
  | nil =>
      unfold strstr
      split
      · rename_i hpattern
        rw [List.isPrefixOf_iff_prefix] at hpattern
        constructor
        · rintro ⟨⟩
          exact ⟨[], rfl, hpattern, nofun⟩
        · rintro ⟨pre, ht, -, -⟩
          rw [(List.append_eq_nil_iff.mp ht.symm).2]
      · rename_i hpattern
        rw [List.isPrefixOf_iff_prefix] at hpattern
        refine iff_of_false nofun ?_
        rintro ⟨pre, ht, hstart, -⟩
        rw [(List.append_eq_nil_iff.mp ht.symm).2] at hstart
        exact hpattern hstart
  | cons c json ih =>
      unfold strstr
      split
      · rename_i hpattern
        rw [List.isPrefixOf_iff_prefix] at hpattern
        constructor
        · rintro ⟨⟩
          exact ⟨[], rfl, hpattern, nofun⟩
        · rintro ⟨pre, ht, -, hfirst⟩
          cases pre with
          | nil => rw [ht, List.nil_append]
          | cons x pre => exact absurd hpattern (hfirst 0 (Nat.succ_pos _))
      · rename_i hpattern
        rw [List.isPrefixOf_iff_prefix] at hpattern
        rw [ih]
        constructor
        · rintro ⟨pre, rfl, hstart, hfirst⟩
          refine ⟨c :: pre, rfl, hstart, fun k hk => ?_⟩
          cases k with
          | zero => exact hpattern
          | succ k => exact hfirst k (Nat.lt_of_succ_lt_succ hk)
        · rintro ⟨pre, ht, hstart, hfirst⟩
          cases pre with
          | nil =>
              rw [List.nil_append] at ht
              exact absurd (ht ▸ hstart) hpattern
          | cons x pre =>
              exact ⟨pre, (List.cons.inj ht).2, hstart, fun k hk => hfirst (k + 1) (Nat.succ_lt_succ hk)⟩

/-- What the reader comes to behind its pattern. -/
theorem get_string_quoted {json key content : List UInt8} (h : QuotedAfter json key content) :
    e9ide_json_get_string json key = stringEnd content >>= fun len => .ok (some (content.take len)) := by
  obtain ⟨pre, blanks, rfl, hfirst, hblanks⟩ := h
  have hplace : strstr (pre ++ keyPattern key ++ blanks ++ 0x22 :: content) (keyPattern key) =
      some (keyPattern key ++ (blanks ++ 0x22 :: content)) :=
    strstr_eq_some.mpr ⟨pre, by simp only [List.append_assoc], List.prefix_append _ _, hfirst⟩
  unfold e9ide_json_get_string
  rw [hplace]
  dsimp only
  rw [List.drop_left, List.dropWhile_append_of_pos fun c hc => by simpa using hblanks c hc,
    List.dropWhile_cons_of_neg (by decide)]
  exact if_pos rfl

/-- Where there are no quotes, nothing is given. -/
theorem get_string_unquoted {json key : List UInt8} (h : ¬∃ content, QuotedAfter json key content) :
    e9ide_json_get_string json key = .ok none := by
  unfold e9ide_json_get_string
  split
  · rfl
  · rename_i pos hplace
    obtain ⟨pre, rfl, ⟨rest, rfl⟩, hfirst⟩ := strstr_eq_some.mp hplace
    rw [List.drop_left]
    split
    · rfl
    · rename_i c content hafter
      split
      · rename_i hquote
        subst hquote
        refine absurd ⟨content, pre, rest.takeWhile fun c => c = 0x20 || c = 0x09, ?_, hfirst, fun c hc => ?_⟩ h
        · rw [← hafter, List.append_assoc, List.append_assoc, List.takeWhile_append_dropWhile]
        · simpa using List.mem_takeWhile_imp hc
      · rfl

/-- The string stands in quotes where the reader looks for it, with no quote or backslash that ends it before. -/
def StandsQuoted (json key s : List UInt8) : Prop :=
  ∃ rest, QuotedAfter json key (s ++ rest) ∧ Paired s ∧ ∀ c ∈ rest.head?, c = 0x22

theorem get_string_iff {json key s : List UInt8} :
    e9ide_json_get_string json key = .ok (some s) ↔ StandsQuoted json key s := by
  constructor
  · intro h
    by_cases hquoted : ∃ content, QuotedAfter json key content
    · obtain ⟨content, hcontent⟩ := hquoted
      rw [get_string_quoted hcontent] at h
      obtain ⟨len, hlen, h⟩ := of_bind h
      obtain ⟨t, rest, rfl, rfl, ht, hrest⟩ := stringEnd_ok_iff.mp hlen
      rw [List.take_left] at h
      cases h
      exact ⟨rest, hcontent, ht, hrest⟩
    · rw [get_string_unquoted hquoted] at h
      cases h
  · rintro ⟨rest, hquoted, hs, hrest⟩
    rw [get_string_quoted hquoted, stringEnd_ok_iff.mpr ⟨s, rest, rfl, rfl, hs, hrest⟩, ok_bind, List.take_left]

/-- Behind the quote that the reader comes to, the text ends in a backslash that is in no pair. -/
def EndsInBackslash (json key : List UInt8) : Prop := ∃ s, QuotedAfter json key (s ++ [0x5C]) ∧ Paired s

theorem get_string_safe_iff {json key : List UInt8} :
    Safe (e9ide_json_get_string json key) ↔ ¬EndsInBackslash json key := by
  by_cases hquoted : ∃ content, QuotedAfter json key content
  · obtain ⟨content, hcontent⟩ := hquoted
    have hsafe : Safe (e9ide_json_get_string json key) ↔ Safe (stringEnd content) := by
      rw [get_string_quoted hcontent, safe_bind]
      exact ⟨fun ⟨n, hn, _⟩ => ⟨n, hn⟩, fun ⟨n, hn⟩ => ⟨n, hn, safe_ok _⟩⟩
    rw [hsafe, stringEnd_safe_iff]
    apply not_congr
    constructor
    · rintro ⟨s, rfl, hs⟩
      exact ⟨s, hcontent, hs⟩
    · rintro ⟨s, hquoted, hs⟩
      have heq := (get_string_quoted hcontent).symm.trans (get_string_quoted hquoted)
      by_contra hnone
      obtain ⟨n, hn⟩ := stringEnd_safe_iff.mpr hnone
      have herror := mt stringEnd_safe_iff.mp fun h => h ⟨s, rfl, hs⟩
      rw [hn, ok_bind] at heq
      obtain ⟨m, hm, -⟩ := of_bind heq.symm
      exact herror ⟨m, hm⟩
  · refine iff_of_true ⟨_, get_string_unquoted hquoted⟩ ?_
    rintro ⟨s, hs, -⟩
    exact hquoted ⟨_, hs⟩

/-- The string is escaped inside the buffer, to a literal. -/
def EscapesToLiteral (s : CText) : Prop := ∃ out, json_escape s.chars = .ok out ∧ IsStringLiteral out

/-- For the key of each member that is a string, that string is what the reader gives. -/
def IdeObject.ReadsBack (o : IdeObject) : Prop :=
  ∀ member ∈ o.strings, e9ide_json_get_string o.text member.1.chars = .ok (some member.2.chars)

/-- The escapes are a literal in their buffer exactly if no character steps over twice the length of the string. From
the text of an object the strings of its members are read back exactly if each stands, in quotes and paired, behind the
first place of its key's pattern. And a text is read up to its terminator at most exactly if the string that is come to
does not end in a backslash that is in no pair. -/
theorem ide_json_iff (s : CText) (o : IdeObject) (json key : CText) :
    (EscapesToLiteral s ↔ EscapeFits s.chars) ∧
    (o.ReadsBack ↔ ∀ member ∈ o.strings, StandsQuoted o.text member.1.chars member.2.chars) ∧
    (Safe (e9ide_json_get_string json.chars key.chars) ↔ ¬EndsInBackslash json.chars key.chars) := by
  refine ⟨escape_literal_iff s.chars, ?_, get_string_safe_iff⟩
  exact forall₂_congr fun member _ => get_string_iff

/-- A C string of one character. -/
def CText.single (c : UInt8) (h : 0 ∉ [c]) : CText := ⟨[c], h⟩

theorem single_member {c : UInt8} {h : 0 ∉ [c]} {v : IdeValue} {t : List UInt8}
    (hc : json_escape [c] = .ok [0x22, c, 0x22]) (ht : ValueText v t) :
    MemberText (.single c h) v (0x22 :: c :: 0x22 :: 0x3A :: t) := by
  have hnil : IsSpace [] := nofun
  have hmember := @MemberText.member (.single c h) v _ t [] [] [] [] hc ht hnil hnil hnil hnil
  simpa using hmember

theorem single_text {c : UInt8} {h : 0 ∉ [c]} (hc : json_escape [c] = .ok [0x22, c, 0x22]) :
    ValueText (.string (.single c h)) [0x22, c, 0x22] := .string hc

/-- `{"x":{"a":"1"},"a":"2"}`. -/
def nestedObject : IdeObject where
  members := [(.single 0x78 (by decide), .object [(.single 0x61 (by decide), .string (.single 0x31 (by decide)))]),
    (.single 0x61 (by decide), .string (.single 0x32 (by decide)))]
  text := [0x7B, 0x22, 0x78, 0x22, 0x3A, 0x7B, 0x22, 0x61, 0x22, 0x3A, 0x22, 0x31, 0x22, 0x7D, 0x2C, 0x22, 0x61, 0x22,
    0x3A, 0x22, 0x32, 0x22, 0x7D]
  made := .object (.more (single_member (by decide) (.object (.one (single_member (by decide) (single_text (by decide))))))
    (.one (single_member (by decide) (single_text (by decide)))))

/-- The character 1 needs six bytes of a buffer of five, the key of a nested object is found first, and a last backslash
hides the terminator. -/
theorem ide_json_fails : (¬∀ s, EscapesToLiteral s) ∧ (¬∀ o : IdeObject, o.ReadsBack) ∧
    ¬∀ json key : CText, Safe (e9ide_json_get_string json.chars key.chars) := by
  refine ⟨fun h => ?_, fun h => ?_, fun h => ?_⟩
  · obtain ⟨out, hout, -⟩ := h (.single 1 (by decide))
    have hescape : json_escape [1] = .error .outOfBounds := by decide
    cases hescape.symm.trans hout
  · have hstrings : nestedObject.strings = [(.single 0x61 (by decide), .single 0x32 (by decide))] := rfl
    have hread := h nestedObject _ (hstrings ▸ List.mem_singleton_self _)
    have hfirst : e9ide_json_get_string nestedObject.text [0x61] = .ok (some [0x31]) := by decide
    cases hfirst.symm.trans hread
  · obtain ⟨r, hr⟩ := h ⟨[0x22, 0x61, 0x22, 0x3A, 0x22, 0x5C], by decide⟩ (.single 0x61 (by decide))
    have hover : e9ide_json_get_string [0x22, 0x61, 0x22, 0x3A, 0x22, 0x5C] [0x61] = .error .outOfBounds := by decide
    cases hover.symm.trans hr

end E9Patch
