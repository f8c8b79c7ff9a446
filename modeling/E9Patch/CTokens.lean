import Mathlib.Data.Bool.AllAny
import Mathlib.Data.List.TakeWhile
import E9Patch.Numerals

/-!
Tokens of C. At each place the longest sequence of characters that can be a token is taken: an identifier or a keyword, a
preprocessing number, or a punctuator. Comments, and constants other than integers, are no tokens here.
-/

namespace CLang
open Numerals

inductive Token where
  | ident (name : List UInt8)
  | number (decimal : Bool) (value : Nat)
  | punct (text : List UInt8)
  deriving DecidableEq, Repr

/-! ### Characters -/

def isSpace (c : UInt8) : Bool := c = 0x20 || 0x09 ≤ c && c ≤ 0x0D

def isLetter (c : UInt8) : Bool := 0x41 ≤ c && c ≤ 0x5A || 0x61 ≤ c && c ≤ 0x7A || c = 0x5F

def isDecimal (c : UInt8) : Bool := 0x30 ≤ c && c ≤ 0x39

/-- A character inside an identifier. -/
def isWordChar (c : UInt8) : Bool := isLetter c || isDecimal c

def IsIdent (s : List UInt8) : Prop := (∃ c ∈ s.head?, isLetter c = true) ∧ ∀ c ∈ s, isWordChar c = true

/-! ### Tokens -/

/-- The punctuators, the longer ones first. -/
def puncts : List (List UInt8) :=
  ["%:%:", "...", "<<=", ">>=", "->", "++", "--", "<<", ">>", "<=", ">=", "==", "!=", "&&", "||", "*=", "/=", "%=", "+=",
    "-=", "&=", "^=", "|=", "##", "<:", ":>", "<%", "%>", "%:", "[", "]", "(", ")", "\x7b", "\x7d", ".", "&", "*", "+", "-",
    "~", "!", "/", "%", "<", ">", "^", "|", "?", ":", ";", "=", ",", "#"].map ascii

/-- A preprocessing number in front of a text, and what is behind it: a sign goes on with it behind `e` or `p`. -/
def ppNumber : List UInt8 → List UInt8 × List UInt8
  | [] => ([], [])
  | c :: s =>
    if isWordChar c || c = 0x2E then
      match s with
      | [] => ([c], [])
      | d :: t =>
        if c ∈ [0x45, 0x65, 0x50, 0x70] ∧ d ∈ [0x2B, 0x2D] then
          let r := ppNumber t
          (c :: d :: r.1, r.2)
        else
          let r := ppNumber (d :: t)
          (c :: r.1, r.2)
    else ([], c :: s)

/-- The digits of a base, if there is one and nothing else. -/
def digitsValue (base : Nat) (s : List UInt8) : Option Nat :=
  if s ≠ [] ∧ s.all (isDigit base) then some (ofDigits base s) else none

/-- An integer constant without a suffix: whether it is a decimal one, and its value. The zero has the type of a
decimal constant. -/
def integerConstant : List UInt8 → Option (Bool × Nat)
  | [] => none
  | c :: s =>
    if c = 0x30 then
      match s with
      | [] => some (true, 0)
      | d :: t => (if d = 0x78 ∨ d = 0x58 then digitsValue 16 t else digitsValue 8 (d :: t)).map fun n => (false, n)
    else (digitsValue 10 (c :: s)).map fun n => (true, n)

/-- The start of a comment, or of a floating constant. -/
def startsOther : List UInt8 → Bool
  | c :: d :: _ => c = 0x2F && (d = 0x2A || d = 0x2F) || c = 0x2E && isDecimal d
  | _ => false

/-- The longest token in front of a text, and what is behind it. -/
def nextToken : List UInt8 → Option (Token × List UInt8)
  | [] => none
  | c :: s =>
    if isLetter c then some (.ident ((c :: s).takeWhile isWordChar), (c :: s).dropWhile isWordChar)
    else if isDecimal c then
      (integerConstant (ppNumber (c :: s)).1).map fun n => (.number n.1 n.2, (ppNumber (c :: s)).2)
    else if startsOther (c :: s) then none
    else (puncts.find? (·.isPrefixOf (c :: s))).map fun p => (.punct p, (c :: s).drop p.length)

/-- The text is the sequence of tokens, with white space between them. -/
inductive Lexes : List UInt8 → List Token → Prop where
  | nil : Lexes [] []
  | space {c : UInt8} {s : List UInt8} {ts : List Token} : isSpace c = true → Lexes s ts → Lexes (c :: s) ts
  | token {s rest : List UInt8} {t : Token} {ts : List Token} : nextToken s = some (t, rest) → Lexes rest ts →
      Lexes s (t :: ts)

/-! ### The tokens of a text -/

set_option maxRecDepth 8000 in
theorem nextToken_space {c : UInt8} (h : isSpace c = true) (s : List UInt8) : nextToken (c :: s) = none := by
  have hspace : isLetter c = false ∧ isDecimal c = false := by
    have hall : ∀ n < 256, isSpace (UInt8.ofNat n) = true →
        isLetter (UInt8.ofNat n) = false ∧ isDecimal (UInt8.ofNat n) = false := by decide
    have hc := hall c.toNat c.toNat_lt
    rw [UInt8.ofNat_toNat] at hc
    exact hc h
  have hpuncts : ∀ p ∈ puncts, ∃ d ∈ p.head?, isSpace d = false := by decide
  have hother : startsOther (c :: s) = false := by
    have hc : c ≠ 0x2F ∧ c ≠ 0x2E := by
      constructor <;> rintro rfl <;> cases h
    cases s with
    | nil => rfl
    | cons d t => simp [startsOther, hc]
  rw [nextToken, if_neg (by simp [hspace.1]), if_neg (by simp [hspace.2]), if_neg (by simp [hother])]
  rw [List.find?_eq_none.mpr]
  · rfl
  · intro p hp hstart
    obtain ⟨d, hd, hdspace⟩ := hpuncts p hp
    cases p with
    | nil => cases hd
    | cons e p =>
        cases hd
        rw [List.isPrefixOf_cons_cons, Bool.and_eq_true, beq_iff_eq] at hstart
        rw [hstart.1, h] at hdspace
        cases hdspace

/-- A text has one sequence of tokens. -/
theorem Lexes.unique {s : List UInt8} {ts us : List Token} (ht : Lexes s ts) (hu : Lexes s us) : ts = us := by
  induction ht generalizing us with
  | nil =>
      cases hu with
      | nil => rfl
      | token h _ => cases h
  | space hc _ ih =>
      cases hu with
      | space _ h => exact ih h
      | token h _ =>
          rw [nextToken_space hc] at h
          cases h
  | token h hrest ih =>
      cases hu with
      | nil => cases h
      | space hc _ =>
          rw [nextToken_space hc] at h
          cases h
      | token h' hrest' =>
          obtain ⟨rfl, rfl⟩ := Prod.mk.inj (Option.some.inj (h.symm.trans h'))
          rw [ih hrest']

/-- The identifiers of a text are sequences of letters and digits. -/
theorem Lexes.isIdent {s : List UInt8} {ts : List Token} (h : Lexes s ts) {name : List UInt8}
    (hname : .ident name ∈ ts) : IsIdent name := by
  induction h with
  | nil => cases hname
  | space _ _ ih => exact ih hname
  | @token s rest t ts hnext _ ih =>
      rcases List.mem_cons.mp hname with rfl | hname
      · cases s with
        | nil => cases hnext
        | cons c s =>
            rw [nextToken] at hnext
            split_ifs at hnext with hletter hdecimal hother
            · obtain ⟨heq, -⟩ := Prod.mk.inj (Option.some.inj hnext)
              injection heq with heq
              subst heq
              refine ⟨⟨c, ?_, hletter⟩, fun d hd => List.mem_takeWhile_imp hd⟩
              have hword : isWordChar c = true := by rw [isWordChar, hletter, Bool.true_or]
              rw [List.takeWhile_cons, if_pos hword]
              rfl
            · obtain ⟨_, -, heq⟩ := Option.map_eq_some_iff.mp hnext
              cases heq
            · obtain ⟨_, -, heq⟩ := Option.map_eq_some_iff.mp hnext
              cases heq
      · exact ih hname

/-! ### Reading one token -/

/-- What a word or a number ends in front of. -/
def Stops (s : List UInt8) : Prop := ∀ c ∈ s.head?, isWordChar c = false ∧ c ∉ [0x2E, 0x2B, 0x2D]

theorem nextToken_ident {w rest : List UInt8} (hw : IsIdent w) (hrest : Stops rest) :
    nextToken (w ++ rest) = some (.ident w, rest) := by
  obtain ⟨⟨c, hc, hletter⟩, hall⟩ := hw
  obtain ⟨w, rfl⟩ : ∃ w', w = c :: w' := List.head?_eq_some_iff.mp hc
  have hend : rest.takeWhile isWordChar = [] ∧ rest.dropWhile isWordChar = rest := by
    cases rest with
    | nil => exact ⟨rfl, rfl⟩
    | cons d rest => simp [(hrest d rfl).1]
  rw [List.cons_append, nextToken, if_pos hletter, ← List.cons_append, List.takeWhile_append_of_pos hall,
    List.dropWhile_append_of_pos hall, hend.1, hend.2, List.append_nil]

theorem ppNumber_word {w rest : List UInt8} (hw : ∀ c ∈ w, isWordChar c = true) (hrest : Stops rest) :
    ppNumber (w ++ rest) = (w, rest) := by
  induction w with
  | nil =>
      cases rest with
      | nil => rfl
      | cons c rest =>
          obtain ⟨hword, hother⟩ := hrest c rfl
          rw [List.nil_append, ppNumber.eq_def]
          dsimp only
          rw [if_neg]
          rw [hword, Bool.false_or, decide_eq_true_eq]
          rintro rfl
          exact hother (by decide)
  | cons c w ih =>
      have ih := ih fun d hd => hw d (List.mem_cons_of_mem _ hd)
      have hc : (isWordChar c || decide (c = 0x2E)) = true := by rw [hw c List.mem_cons_self, Bool.true_or]
      rw [List.cons_append, ppNumber.eq_def]
      dsimp only
      rw [if_pos hc]
      cases hs : w ++ rest with
      | nil =>
          obtain ⟨rfl, rfl⟩ := List.append_eq_nil_iff.mp hs
          rfl
      | cons d t =>
          have hsign : d ∉ [0x2B, 0x2D] := by
            intro hd
            have hdw : isWordChar d = false := by
              have : ∀ d ∈ ([0x2B, 0x2D] : List UInt8), isWordChar d = false := List.all_iff_forall_prop.mp (by decide)
              exact this d hd
            cases w with
            | nil =>
                rw [List.nil_append] at hs
                subst hs
                exact (hrest d rfl).2 (List.mem_cons_of_mem _ hd)
            | cons e w =>
                obtain ⟨rfl, -⟩ := List.cons.inj hs
                rw [hw e (List.mem_cons_of_mem _ List.mem_cons_self)] at hdw
                cases hdw
          dsimp only
          rw [if_neg fun h => hsign h.2, ← hs, ih]

theorem nextToken_number {w rest : List UInt8} {b : Bool} {n : Nat} (hw : ∀ c ∈ w, isWordChar c = true)
    (hhead : ∃ c ∈ w.head?, isDecimal c = true) (hvalue : integerConstant w = some (b, n)) (hrest : Stops rest) :
    nextToken (w ++ rest) = some (.number b n, rest) := by
  obtain ⟨c, hc, hdecimal⟩ := hhead
  obtain ⟨w, rfl⟩ : ∃ w', w = c :: w' := List.head?_eq_some_iff.mp hc
  have hletter : isLetter c = false := by
    unfold isDecimal at hdecimal
    unfold isLetter
    simp only [Bool.and_eq_true, decide_eq_true_eq, UInt8.le_iff_toNat_le] at hdecimal
    simp only [Bool.or_eq_false_iff, Bool.and_eq_false_iff, decide_eq_false_iff_not, UInt8.le_iff_toNat_le,
      ← UInt8.toNat_inj]
    have h1 : UInt8.toNat 0x30 = 0x30 := rfl
    have h2 : UInt8.toNat 0x39 = 0x39 := rfl
    have h3 : UInt8.toNat 0x41 = 0x41 := rfl
    have h4 : UInt8.toNat 0x61 = 0x61 := rfl
    have h5 : UInt8.toNat 0x5F = 0x5F := rfl
    omega
  rw [List.cons_append, nextToken, if_neg (by simp [hletter]), if_pos hdecimal, ← List.cons_append,
    ppNumber_word hw hrest, hvalue]
  rfl

/-- A digit of a base up to 16 is a letter or a decimal digit. -/
theorem isWordChar_of_isDigit {base : Nat} (hb : base ≤ 16) {c : UInt8} (h : isDigit base c = true) :
    isWordChar c = true := by
  have hvalue : digitValue c < 16 := Nat.lt_of_lt_of_le (of_decide_eq_true h) hb
  unfold digitValue at hvalue
  unfold isWordChar isLetter isDecimal
  simp only [Bool.or_eq_true, Bool.and_eq_true, decide_eq_true_eq, UInt8.le_iff_toNat_le] at *
  have h1 : UInt8.toNat 0x30 = 0x30 := rfl
  have h2 : UInt8.toNat 0x39 = 0x39 := rfl
  have h3 : UInt8.toNat 0x41 = 0x41 := rfl
  have h4 : UInt8.toNat 0x61 = 0x61 := rfl
  have h5 : UInt8.toNat 0x5A = 0x5A := rfl
  have h6 : UInt8.toNat 0x7A = 0x7A := rfl
  split_ifs at hvalue <;> omega

theorem isDecimal_of_isDigit {c : UInt8} (h : isDigit 10 c = true) : isDecimal c = true := by
  have hvalue : digitValue c < 10 := of_decide_eq_true h
  unfold digitValue at hvalue
  unfold isDecimal
  simp only [Bool.and_eq_true, decide_eq_true_eq]
  split_ifs at hvalue with h1 h2 h3
  · exact h1
  all_goals omega

theorem digitsValue_numeral {base : Nat} (hb : 1 < base) (hb' : base ≤ 16) (n : Nat) :
    digitsValue base (numeral base n) = some n := by
  rw [digitsValue, if_pos ⟨numeral_ne_nil base n, List.all_eq_true.mpr (numeral_digits hb hb' n)⟩, ofDigits_numeral hb hb']

theorem integerConstant_decimal (n : Nat) : integerConstant (numeral 10 n) = some (true, n) := by
  rcases Nat.eq_zero_or_pos n with rfl | hn
  · decide
  · obtain ⟨c, s, hs, hc⟩ := @numeral_head 10 n (by decide) (by decide) hn
    have hvalue := @digitsValue_numeral 10 (by decide) (by decide) n
    rw [hs] at hvalue ⊢
    rw [integerConstant.eq_def]
    dsimp only
    rw [if_neg hc, hvalue]
    rfl

theorem nextToken_decimal (n : Nat) {rest : List UInt8} (hrest : Stops rest) :
    nextToken (numeral 10 n ++ rest) = some (.number true n, rest) := by
  have hdigits := @numeral_digits 10 (by decide) (by decide) n
  refine nextToken_number (fun c hc => isWordChar_of_isDigit (by decide) (hdigits c hc)) ?_
    (integerConstant_decimal n) hrest
  cases hs : numeral 10 n with
  | nil => exact absurd hs (numeral_ne_nil 10 n)
  | cons c s => exact ⟨c, rfl, isDecimal_of_isDigit (hdigits c (hs ▸ List.mem_cons_self))⟩

theorem nextToken_hex (n : Nat) {rest : List UInt8} (hrest : Stops rest) :
    nextToken (ascii "0x" ++ numeral 16 n ++ rest) = some (.number false n, rest) := by
  have hdigits := @numeral_digits 16 (by decide) (by decide) n
  refine nextToken_number (fun c hc => ?_) ⟨0x30, rfl, by decide⟩ ?_ hrest
  · rcases List.mem_append.mp hc with hc | hc
    · have hx : ∀ c ∈ ascii "0x", isWordChar c = true := List.all_iff_forall_prop.mp (by decide)
      exact hx c hc
    · exact isWordChar_of_isDigit (Nat.le_refl 16) (hdigits c hc)
  · exact congrArg (Option.map _) (digitsValue_numeral (by decide) (by decide) n)

/-- The characters that make a longer punctuator of one. -/
def followers (w : List UInt8) : List UInt8 :=
  puncts.filterMap fun p => if w.isPrefixOf p then p[w.length]? else none

theorem puncts_sorted : puncts.Pairwise fun p q => q.length ≤ p.length := by decide

theorem isPrefixOf_iff {p s : List UInt8} : p.isPrefixOf s = true ↔ ∃ t, s = p ++ t := by
  rw [List.isPrefixOf_iff_prefix]
  exact ⟨fun ⟨t, h⟩ => ⟨t, h.symm⟩, fun ⟨t, h⟩ => ⟨t, h.symm⟩⟩

/-- The longest punctuator is taken, and this is the one in front of a character that makes no longer one of it. -/
theorem find_punct {w s : List UInt8} (hw : w ∈ puncts) (hs : ∀ c ∈ s.head?, c ∉ followers w) :
    puncts.find? (·.isPrefixOf (w ++ s)) = some w := by
  have hself : w.isPrefixOf (w ++ s) = true := isPrefixOf_iff.mpr ⟨s, rfl⟩
  obtain ⟨p, hfind⟩ : ∃ p, puncts.find? (·.isPrefixOf (w ++ s)) = some p := by
    rw [← Option.isSome_iff_exists, List.find?_isSome]
    exact ⟨w, hw, hself⟩
  rw [hfind]
  obtain ⟨hstart, as, bs, hsplit, hbefore⟩ := List.find?_eq_some_iff_append.mp hfind
  obtain ⟨t, ht⟩ := isPrefixOf_iff.mp hstart
  -- every punctuator before `p` fails, so that `w` is `p` or behind it, and no longer
  have hlen : w.length ≤ p.length := by
    have hsorted := puncts_sorted
    rw [hsplit] at hw hsorted
    rw [List.pairwise_append, List.pairwise_cons] at hsorted
    rcases List.mem_append.mp hw with hw | hw
    · have := hbefore w hw
      rw [hself] at this
      cases this
    · rcases List.mem_cons.mp hw with rfl | hw
      · exact Nat.le_refl _
      · exact hsorted.2.1.1 w hw
  rcases List.append_eq_append_iff.mp ht with ⟨u, rfl, hu⟩ | ⟨u, rfl, hu⟩
  · cases u with
    | nil => rw [List.append_nil]
    | cons c u =>
        have hp : w ++ c :: u ∈ puncts := List.mem_of_find?_eq_some hfind
        refine absurd (List.mem_filterMap.mpr ⟨_, hp, ?_⟩) (hs c (by rw [hu]; rfl))
        rw [if_pos (isPrefixOf_iff.mpr ⟨c :: u, rfl⟩), List.getElem?_append_right (Nat.le_refl _), Nat.sub_self]
        rfl
  · rw [List.length_append] at hlen
    rw [List.length_eq_zero_iff.mp (show u.length = 0 by omega), List.append_nil]

theorem nextToken_punct {w s : List UInt8} (hw : w ∈ puncts) (hs : ∀ c ∈ s.head?, c ∉ followers w)
    (hother : startsOther (w ++ s) = false) : nextToken (w ++ s) = some (.punct w, s) := by
  have hhead : ∀ p ∈ puncts, ∃ c ∈ p.head?, isWordChar c = false := by decide
  have hfind := find_punct hw hs
  obtain ⟨c, hc, hword⟩ := hhead w hw
  obtain ⟨w, rfl⟩ : ∃ w', w = c :: w' := List.head?_eq_some_iff.mp hc
  rw [isWordChar, Bool.or_eq_false_iff] at hword
  rw [List.cons_append] at hfind hother ⊢
  rw [nextToken, if_neg (by simp [hword.1]), if_neg (by simp [hword.2]), if_neg (by simp [hother]), hfind,
    Option.map_some, ← List.cons_append, List.drop_left]

end CLang
