import E9Patch.DecompileModel

/-!
The tokens of a decompiled expression. The text is written in pieces, and a piece of less than 1024 bytes always fits
into the buffer. Two operators in front of an operand stand side by side, so that two minus signs or two ampersands
are read as one token; what stands for the remainder is read as two.
-/

namespace E9Patch
open Numerals

/-! ### Pieces -/

/-- The texts that are written one after another. -/
def pieces : E9IRValue → Int → List (List UInt8)
  | .null, _ => [ascii "0"]
  | .CONST constant, _ => [constText constant]
  | .REG reg, _ => [regText reg]
  | .LOCAL index name, _ => [varText (ascii "local_") index name]
  | .PARAM index name, _ => [varText (ascii "param_") index name]
  | .TEMP index, _ => [ascii "t" ++ decimal index]
  | .GLOBAL index name, _ => [varText (ascii "g_") index name]
  | .binary op left right, precedence =>
    let my_prec := op_precedence op
    let body := pieces left my_prec ++ [ascii " " ++ op_to_c op ++ ascii " "] ++ pieces right my_prec
    if (my_prec : Int) ≥ precedence then [ascii "("] ++ body ++ [ascii ")"] else body
  | .NEG operand, _ => ascii "-" :: pieces operand 2
  | .NOT operand, _ => ascii "~" :: pieces operand 2
  | .LOAD addr size, _ => (ascii "*(" ++ loadType size ++ ascii " *)") :: pieces addr 2
  | .ADDRESS operand, _ => ascii "&" :: pieces operand 2
  | .CAST type operand, _ => (ascii "(" ++ type_to_c type ++ ascii ")") :: pieces operand 2

theorem emit_value_eq (dc : E9Decompile) (v : E9IRValue) (precedence : Int) :
    emit_value dc v precedence = (pieces v precedence).foldlM emit dc := by
  have hone : ∀ (dc : E9Decompile) s, [s].foldlM emit dc = emit dc s := fun dc s => by
    rw [List.foldlM_cons]
    exact bind_pure _
  induction v generalizing dc precedence with
  | binary op left right ihl ihr =>
      rw [emit_value, pieces]
      dsimp only
      by_cases hparens : (op_precedence op : Int) ≥ precedence
      · simp only [if_pos hparens, List.foldlM_append, hone, ← ihl, ← ihr, bind_assoc]
      · simp only [if_neg hparens, List.foldlM_append, hone, ← ihl, ← ihr, bind_assoc]
        exact bind_congr fun dc => bind_congr fun dc => bind_pure (emit_value dc right _)
  | NEG operand ih => exact bind_congr fun dc => ih dc 2
  | NOT operand ih => exact bind_congr fun dc => ih dc 2
  | LOAD addr size ih => exact bind_congr fun dc => ih dc 2
  | ADDRESS operand ih => exact bind_congr fun dc => ih dc 2
  | CAST type operand ih => exact bind_congr fun dc => ih dc 2
  | null => exact (hone dc _).symm
  | CONST _ => exact (hone dc _).symm
  | REG _ => exact (hone dc _).symm
  | LOCAL _ _ => exact (hone dc _).symm
  | GLOBAL _ _ => exact (hone dc _).symm
  | PARAM _ _ => exact (hone dc _).symm
  | TEMP _ => exact (hone dc _).symm

/-! ### The buffer -/

theorem new_cap_room (dc : E9Decompile) : dc.output.length + 1024 ≤ new_cap dc := by
  have hfits := dc.fits
  unfold new_cap
  dsimp only
  split_ifs <;> omega

theorem emit_output {dc dc' : E9Decompile} {s : List UInt8} (h : emit dc s = some dc') :
    dc'.output = dc.output ++ s := by
  unfold emit at h
  split_ifs at h
  cases h
  rfl

theorem emitAll_output {ps : List (List UInt8)} {dc dc' : E9Decompile} (h : ps.foldlM emit dc = some dc') :
    dc'.output = dc.output ++ ps.flatten := by
  induction ps generalizing dc with
  | nil =>
      cases h
      exact (List.append_nil _).symm
  | cons s ps ih =>
      rw [List.foldlM_cons] at h
      obtain ⟨dc₁, hs, hps⟩ := Option.bind_eq_some_iff.mp h
      rw [ih hps, emit_output hs, List.flatten_cons, List.append_assoc]

theorem emit_short {s : List UInt8} (hs : s.length < 1024) (dc : E9Decompile) : ∃ dc', emit dc s = some dc' := by
  have hroom := new_cap_room dc
  have hfits : (dc.output ++ s).length < new_cap dc := by
    rw [List.length_append]
    omega
  exact ⟨_, dif_pos hfits⟩

theorem emitAll_short {ps : List (List UInt8)} (hps : ∀ s ∈ ps, s.length < 1024) (dc : E9Decompile) :
    ∃ dc', ps.foldlM emit dc = some dc' := by
  induction ps generalizing dc with
  | nil => exact ⟨dc, rfl⟩
  | cons s ps ih =>
      obtain ⟨dc₁, hs⟩ := emit_short (hps s List.mem_cons_self) dc
      obtain ⟨dc', hdc'⟩ := ih (fun t ht => hps t (List.mem_cons_of_mem _ ht)) dc₁
      exact ⟨dc', by rw [List.foldlM_cons, hs]; exact hdc'⟩

/-- With room for 1024 bytes, but not for the text, the text is cut off. -/
theorem emit_long {dc : E9Decompile} {s : List UInt8} (hs : 1024 ≤ s.length)
    (hroom : dc.output_capacity = dc.output.length + 1024) : emit dc s = none := by
  refine dif_neg ?_
  rw [new_cap, if_neg (by omega), List.length_append]
  omega

theorem short_of_emitAll {ps : List (List UInt8)} (h : ∀ dc, ∃ dc', ps.foldlM emit dc = some dc') :
    ∀ s ∈ ps, s.length < 1024 := by
  by_contra hlong
  push Not at hlong
  obtain ⟨s, hs, hlen⟩ := hlong
  obtain ⟨as, bs, rfl⟩ := List.append_of_mem hs
  -- the buffer has room for 1024 bytes once the pieces before the long one are written, and never grows
  suffices hall : ∀ (as : List (List UInt8)) (dc : E9Decompile),
      dc.output_capacity = dc.output.length + as.flatten.length + 1024 → (as ++ s :: bs).foldlM emit dc = none by
    obtain ⟨dc', hdc'⟩ := h ⟨[], as.flatten.length + 1024, Nat.zero_le _⟩
    rw [hall as _ (by simp)] at hdc'
    cases hdc'
  intro as
  induction as with
  | nil =>
      intro dc hcap
      rw [List.nil_append, List.foldlM_cons, emit_long hlen hcap]
      rfl
  | cons p as ih =>
      intro dc hcap
      rw [List.flatten_cons, List.length_append] at hcap
      rw [List.cons_append, List.foldlM_cons]
      have hgrown : new_cap dc = dc.output_capacity := by
        rw [new_cap, if_neg (by omega)]
      have hfits : (dc.output ++ p).length < new_cap dc := by
        rw [hgrown, List.length_append]
        omega
      rw [show emit dc p = some _ from dif_pos hfits]
      refine ih _ ?_
      show new_cap dc = (dc.output ++ p).length + as.flatten.length + 1024
      rw [hgrown, List.length_append]
      omega

/-! ### Names -/

/-- The types that casts and loads name. -/
def typeNames : List (List UInt8) :=
  ["void", "int8_t", "int16_t", "int32_t", "int64_t", "uint8_t", "uint16_t", "uint32_t", "uint64_t", "float",
    "double"].map ascii

/-- A name that the text of an expression can have: a word of C that is neither a keyword nor a type, and fits into the
buffer. -/
structure IsName (name : List UInt8) : Prop where
  ident : CLang.IsIdent name
  free : name ∉ CLang.keywords ∧ name ∉ typeNames
  short : name.length < 1024

/-- The names of the variables of a tree. -/
def names : E9IRValue → List (List UInt8)
  | .null | .CONST _ => []
  | .binary _ left right => names left ++ names right
  | .NEG operand | .NOT operand | .LOAD operand _ | .ADDRESS operand | .CAST _ operand => names operand
  | v => (varName v).toList

/-- The operations with two operands in a tree. -/
def binaryOps : E9IRValue → List E9IROp
  | .binary op left right => op :: (binaryOps left ++ binaryOps right)
  | .NEG operand | .NOT operand | .LOAD operand _ | .ADDRESS operand | .CAST _ operand => binaryOps operand
  | _ => []

/-! ### Tokens -/

/-- The type that a cast names. -/
def castType (type : Option E9DataType) : CLang.TypeName :=
  if type = some .POINTER then ⟨ascii "void", true⟩ else ⟨type_to_c type, false⟩

def constTokens (constant : BitVec 64) : List CLang.Token :=
  if constant.toInt < 0 then [CLang.lparen, .punct (ascii "-"), .number true (-constant.toInt).toNat, CLang.rparen]
  else [.number (constant.toInt ≤ 0xFFFF) constant.toNat]

def opTokens : E9IROp → List CLang.Token
  | .MOD => [.punct (ascii "%"), .punct (ascii "%")]
  | op => [.punct (op_to_c op)]

/-- The tokens of the text. -/
def exprTokens : E9IRValue → Int → List CLang.Token
  | .null, _ => [.number true 0]
  | .CONST constant, _ => constTokens constant
  | .binary op left right, precedence =>
    let my_prec := op_precedence op
    let body := exprTokens left my_prec ++ (opTokens op ++ exprTokens right my_prec)
    if (my_prec : Int) ≥ precedence then CLang.lparen :: (body ++ [CLang.rparen]) else body
  | .NEG (.NEG operand), _ => .punct (ascii "--") :: exprTokens operand 2
  | .NEG operand, _ => .punct (ascii "-") :: exprTokens operand 2
  | .NOT operand, _ => .punct (ascii "~") :: exprTokens operand 2
  | .LOAD addr size, _ =>
    .punct (ascii "*") :: CLang.lparen :: ((CLang.TypeName.mk (loadType size) true).tokens ++
      CLang.rparen :: exprTokens addr 2)
  | .ADDRESS (.ADDRESS operand), _ => .punct (ascii "&&") :: exprTokens operand 2
  | .ADDRESS operand, _ => .punct (ascii "&") :: exprTokens operand 2
  | .CAST type operand, _ => CLang.lparen :: ((castType type).tokens ++ CLang.rparen :: exprTokens operand 2)
  | v, _ => (varName v).toList.map .ident

/-! ### Reading the text -/

/-- What an expression is followed by: nothing, a blank or a parenthesis. -/
def Closes (s : List UInt8) : Prop := ∀ c ∈ s.head?, c ∈ ascii " )"

theorem Closes.stops {s : List UInt8} (h : Closes s) : CLang.Stops s := by
  have hall : ∀ c ∈ ascii " )", CLang.isWordChar c = false ∧ c ∉ [0x2E, 0x2B, 0x2D] :=
    List.all_iff_forall_prop.mp (by decide)
  exact fun c hc => hall c (h c hc)

theorem closes_cons {c : UInt8} (hc : c ∈ ascii " )") (s : List UInt8) : Closes (c :: s) := by
  rintro d ⟨⟩
  exact hc

theorem lexes_punct {w s : List UInt8} {ts : List CLang.Token} (hw : w ∈ CLang.puncts)
    (hs : ∀ c ∈ s.head?, c ∉ CLang.followers w) (hother : CLang.startsOther (w ++ s) = false)
    (h : CLang.Lexes s ts) : CLang.Lexes (w ++ s) (.punct w :: ts) :=
  .token (CLang.nextToken_punct hw hs hother) h

/-- A punctuator that no longer one begins with. -/
theorem lexes_single {c : UInt8} {s : List UInt8} {ts : List CLang.Token} (hc : c ∈ ascii "()~")
    (h : CLang.Lexes s ts) : CLang.Lexes (c :: s) (.punct [c] :: ts) := by
  have hall : ∀ c ∈ ascii "()~", [c] ∈ CLang.puncts ∧ CLang.followers [c] = [] ∧ c ≠ 0x2F ∧ c ≠ 0x2E :=
    List.all_iff_forall_prop.mp (by decide)
  obtain ⟨hw, hfollow, h1, h2⟩ := hall c hc
  refine lexes_punct hw (fun d _ => by rw [hfollow]; exact List.not_mem_nil) ?_ h
  cases s with
  | nil => rfl
  | cons d s => simp [CLang.startsOther, h1, h2]

theorem lexes_ident {w s : List UInt8} {ts : List CLang.Token} (hw : CLang.IsIdent w) (hs : CLang.Stops s)
    (h : CLang.Lexes s ts) : CLang.Lexes (w ++ s) (.ident w :: ts) :=
  .token (CLang.nextToken_ident hw hs) h

/-- An operator stands between blanks. -/
theorem lexes_op (op : E9IROp) {s : List UInt8} {ts : List CLang.Token} (h : CLang.Lexes s ts) :
    CLang.Lexes (ascii " " ++ op_to_c op ++ ascii " " ++ s) (opTokens op ++ ts) := by
  have hspace : CLang.Lexes (ascii " " ++ s) ts := .space (by decide) h
  have hlex : CLang.Lexes (op_to_c op ++ (ascii " " ++ s)) (opTokens op ++ ts) := by
    by_cases hmod : op = .MOD
    · subst hmod
      refine @lexes_punct (ascii "%") (ascii "%" ++ (ascii " " ++ s)) _ (by decide) ?_ rfl
        (lexes_punct (by decide) ?_ rfl hspace)
      · rintro c ⟨⟩
        decide
      · rintro c ⟨⟩
        decide
    · rw [show opTokens op = [.punct (op_to_c op)] by cases op <;> first | rfl | exact absurd rfl hmod]
      refine lexes_punct ?_ ?_ ?_ hspace
      · revert hmod
        cases op <;> decide
      · rintro c ⟨⟩
        revert hmod
        cases op <;> decide
      · cases op <;> rfl
  rw [List.append_assoc, List.append_assoc]
  exact .space (by decide) hlex

theorem startsOther_cons {c : UInt8} (h1 : c ≠ 0x2F) (h2 : c ≠ 0x2E) (s : List UInt8) :
    CLang.startsOther (c :: s) = false := by
  cases s with
  | nil => rfl
  | cons d s => simp [CLang.startsOther, h1, h2]

/-- A star that no `=` follows. -/
theorem lexes_star {s : List UInt8} {ts : List CLang.Token} (hs : ∀ c ∈ s.head?, c ≠ 0x3D) (h : CLang.Lexes s ts) :
    CLang.Lexes (ascii "*" ++ s) (.punct (ascii "*") :: ts) := by
  refine lexes_punct (by decide) (fun c hc => ?_) (startsOther_cons (by decide) (by decide) _) h
  rw [show CLang.followers (ascii "*") = [0x3D] by decide, List.mem_singleton]
  exact hs c hc

theorem loadType_ident (size : BitVec 32) : CLang.IsIdent (loadType size) := by
  unfold loadType
  split_ifs <;> exact ⟨⟨_, rfl, by decide⟩, List.all_iff_forall_prop.mp (by decide)⟩

theorem lexes_load (size : BitVec 32) {s : List UInt8} {ts : List CLang.Token} (h : CLang.Lexes s ts) :
    CLang.Lexes (ascii "*(" ++ loadType size ++ ascii " *)" ++ s)
      (.punct (ascii "*") :: CLang.lparen :: ((CLang.TypeName.mk (loadType size) true).tokens ++ CLang.rparen :: ts)) := by
  have hclose : CLang.Lexes (ascii ")" ++ s) (CLang.rparen :: ts) := lexes_single (by decide) h
  have hstar : CLang.Lexes (ascii " *)" ++ s) (.punct (ascii "*") :: CLang.rparen :: ts) :=
    .space (by decide) (lexes_star (by rintro c ⟨⟩; decide) hclose)
  have htype := lexes_ident (loadType_ident size) (closes_cons (by decide) _).stops hstar
  rw [List.append_assoc, List.append_assoc]
  exact lexes_star (by rintro c ⟨⟩; decide) (lexes_single (by decide) htype)

theorem lexes_cast (type : Option E9DataType) {s : List UInt8} {ts : List CLang.Token} (h : CLang.Lexes s ts) :
    CLang.Lexes (ascii "(" ++ type_to_c type ++ ascii ")" ++ s)
      (CLang.lparen :: ((castType type).tokens ++ CLang.rparen :: ts)) := by
  have hclose : CLang.Lexes (ascii ")" ++ s) (CLang.rparen :: ts) := lexes_single (by decide) h
  rw [List.append_assoc, List.append_assoc]
  refine lexes_single (by decide) ?_
  by_cases hpointer : type = some .POINTER
  · subst hpointer
    have hstar : CLang.Lexes (ascii " *" ++ (ascii ")" ++ s)) (.punct (ascii "*") :: CLang.rparen :: ts) :=
      .space (by decide) (lexes_star (by rintro c ⟨⟩; decide) hclose)
    exact @lexes_ident (ascii "void") _ _ ⟨⟨_, rfl, by decide⟩, List.all_iff_forall_prop.mp (by decide)⟩ (closes_cons (by decide) _).stops hstar
  · have hident : CLang.IsIdent (type_to_c type) := by
      rcases type with _ | type
      · exact ⟨⟨_, rfl, by decide⟩, List.all_iff_forall_prop.mp (by decide)⟩
      · cases type <;> first | exact absurd rfl hpointer | exact ⟨⟨_, rfl, by decide⟩, List.all_iff_forall_prop.mp (by decide)⟩
    rw [castType, if_neg hpointer]
    exact lexes_ident hident (closes_cons (by decide) _).stops hclose

theorem numeral_decimal (n : Nat) : ∃ c t, numeral 10 n = c :: t ∧ CLang.isDecimal c = true := by
  cases hs : numeral 10 n with
  | nil => exact absurd hs (numeral_ne_nil 10 n)
  | cons c t =>
      have hdigits := @numeral_digits 10 (by decide) (by decide) n
      exact ⟨c, t, rfl, CLang.isDecimal_of_isDigit (hdigits c (hs ▸ List.mem_cons_self))⟩

/-- No punctuator goes on with a digit. -/
theorem not_decimal_of_mem {c : UInt8} (hc : c ∈ ascii "=>-&") : CLang.isDecimal c = false ∧ CLang.isLetter c = false := by
  have hall : ∀ c ∈ ascii "=>-&", CLang.isDecimal c = false ∧ CLang.isLetter c = false :=
    List.all_iff_forall_prop.mp (by decide)
  exact hall c hc

theorem lexes_minus {s : List UInt8} {ts : List CLang.Token} (hs : ∀ c ∈ s.head?, c ∈ ascii "=>-&" → c = 0x26)
    (h : CLang.Lexes s ts) : CLang.Lexes (ascii "-" ++ s) (.punct (ascii "-") :: ts) := by
  have hsub : ∀ c ∈ CLang.followers (ascii "-"), c ∈ ascii "=>-&" ∧ c ≠ 0x26 :=
    List.all_iff_forall_prop.mp (by decide)
  exact lexes_punct (by decide) (fun c hc hmem => (hsub c hmem).2 (hs c hc (hsub c hmem).1))
    (startsOther_cons (by decide) (by decide) _) h

theorem lexes_and {s : List UInt8} {ts : List CLang.Token} (hs : ∀ c ∈ s.head?, c ∈ ascii "=>-&" → c = 0x2D)
    (h : CLang.Lexes s ts) : CLang.Lexes (ascii "&" ++ s) (.punct (ascii "&") :: ts) := by
  have hsub : ∀ c ∈ CLang.followers (ascii "&"), c ∈ ascii "=>-&" ∧ c ≠ 0x2D :=
    List.all_iff_forall_prop.mp (by decide)
  exact lexes_punct (by decide) (fun c hc hmem => (hsub c hmem).2 (hs c hc (hsub c hmem).1))
    (startsOther_cons (by decide) (by decide) _) h

theorem lexes_const (constant : BitVec 64) {s : List UInt8} {ts : List CLang.Token} (hs : Closes s)
    (h : CLang.Lexes s ts) : CLang.Lexes (constText constant ++ s) (constTokens constant ++ ts) := by
  unfold constText constTokens
  by_cases hneg : constant.toInt < 0
  · rw [if_pos hneg, if_pos hneg, decimal, signedNumeral, if_pos hneg]
    have hclose : CLang.Lexes (ascii ")" ++ s) (CLang.rparen :: ts) := lexes_single (by decide) h
    have hnumber : CLang.Lexes (numeral 10 (-constant.toInt).toNat ++ (ascii ")" ++ s))
        (.number true (-constant.toInt).toNat :: CLang.rparen :: ts) :=
      .token (CLang.nextToken_decimal _ (closes_cons (by decide) _).stops) hclose
    rw [List.append_assoc, List.append_assoc]
    refine lexes_single (by decide) (lexes_minus (fun c hc hmem => ?_) hnumber)
    obtain ⟨d, t, hd, hdecimal⟩ := numeral_decimal (-constant.toInt).toNat
    rw [hd] at hc
    cases hc
    rw [(not_decimal_of_mem hmem).1] at hdecimal
    cases hdecimal
  · rw [if_neg hneg, if_neg hneg]
    split_ifs with hbig
    · rw [decide_eq_false (Int.not_le.mpr hbig)]
      exact .token (CLang.nextToken_hex _ hs.stops) h
    · have hnat : constant.toInt.toNat = constant.toNat := by
        have := BitVec.toInt_eq_toNat_cond constant
        omega
      rw [decimal, signedNumeral, if_neg hneg, hnat, decide_eq_true (Int.not_lt.mp hbig)]
      exact .token (CLang.nextToken_decimal _ hs.stops) h

/-- What the text of an operand begins with. -/
theorem head_pieces {v : E9IRValue} (hnames : ∀ x ∈ names v, CLang.IsIdent x) :
    ∃ c t, (pieces v 2).flatten = c :: t ∧ (c ∈ ascii "=>-&" →
      (c = 0x2D ∧ ∃ w, v = .NEG w) ∨ (c = 0x26 ∧ ∃ w, v = .ADDRESS w)) := by
  have hident : ∀ {x : List UInt8}, CLang.IsIdent x → ∃ c t, [x].flatten = c :: t ∧ (c ∈ ascii "=>-&" →
      (c = 0x2D ∧ ∃ w, v = .NEG w) ∨ (c = 0x26 ∧ ∃ w, v = .ADDRESS w)) := by
    rintro x ⟨⟨c, hc, hletter⟩, -⟩
    obtain ⟨t, rfl⟩ := List.head?_eq_some_iff.mp hc
    refine ⟨c, t, by simp, fun hmem => ?_⟩
    rw [(not_decimal_of_mem hmem).2] at hletter
    cases hletter
  cases v with
  | null => exact ⟨_, _, rfl, fun h => absurd h (by decide)⟩
  | CONST constant =>
      show ∃ c t, [constText constant].flatten = c :: t ∧ _
      rw [List.flatten_singleton]
      unfold constText
      split_ifs with hneg
      · exact ⟨_, _, rfl, fun h => absurd h (by decide)⟩
      · exact ⟨_, _, rfl, fun h => absurd h (by decide)⟩
      · obtain ⟨c, t, hc, hdecimal⟩ := numeral_decimal constant.toInt.toNat
        rw [decimal, signedNumeral, if_neg hneg, hc]
        refine ⟨c, t, rfl, fun hmem => ?_⟩
        rw [(not_decimal_of_mem hmem).1] at hdecimal
        cases hdecimal
  | REG reg => exact hident (hnames _ (List.mem_singleton_self _))
  | LOCAL index name => exact hident (hnames _ (List.mem_singleton_self _))
  | GLOBAL index name => exact hident (hnames _ (List.mem_singleton_self _))
  | PARAM index name => exact hident (hnames _ (List.mem_singleton_self _))
  | TEMP index => exact hident (hnames _ (List.mem_singleton_self _))
  | binary op left right =>
      have hparens : (op_precedence op : Int) ≥ 2 := by cases op <;> decide
      rw [pieces, if_pos hparens]
      exact ⟨_, _, rfl, fun h => absurd h (by decide)⟩
  | NEG operand => exact ⟨_, _, rfl, fun _ => Or.inl ⟨rfl, operand, rfl⟩⟩
  | NOT operand => exact ⟨_, _, rfl, fun h => absurd h (by decide)⟩
  | LOAD addr size => exact ⟨_, _, rfl, fun h => absurd h (by decide)⟩
  | ADDRESS operand => exact ⟨_, _, rfl, fun _ => Or.inr ⟨rfl, operand, rfl⟩⟩
  | CAST type operand => exact ⟨_, _, rfl, fun h => absurd h (by decide)⟩

/-! ### Induction over trees -/

section
variable {P : E9IRValue → Prop}

/-- The cases of a tree where two signs or two ampersands that stand side by side are one case, and all variables are
one. -/
@[elab_as_elim]
theorem E9IRValue.adjacent_induction (v : E9IRValue) (null : P .null) (const : ∀ constant, P (.CONST constant))
    (var : ∀ v x, varName v = some x → P v)
    (binary : ∀ op left right, P left → P right → P (.binary op left right))
    (neg_neg : ∀ operand, P operand → P (.NEG (.NEG operand)))
    (neg : ∀ operand, (∀ w, operand ≠ .NEG w) → P operand → P (.NEG operand))
    (not : ∀ operand, P operand → P (.NOT operand))
    (load : ∀ addr size, P addr → P (.LOAD addr size))
    (address_address : ∀ operand, P operand → P (.ADDRESS (.ADDRESS operand)))
    (address : ∀ operand, (∀ w, operand ≠ .ADDRESS w) → P operand → P (.ADDRESS operand))
    (cast : ∀ type operand, P operand → P (.CAST type operand)) : P v := by
  suffices hall : P v ∧ (∀ w, v = .NEG w → P w) ∧ ∀ w, v = .ADDRESS w → P w from hall.1
  induction v with
  | null => exact ⟨null, nofun, nofun⟩
  | CONST constant => exact ⟨const constant, nofun, nofun⟩
  | REG reg => exact ⟨var _ _ rfl, nofun, nofun⟩
  | LOCAL index name => exact ⟨var _ _ rfl, nofun, nofun⟩
  | GLOBAL index name => exact ⟨var _ _ rfl, nofun, nofun⟩
  | PARAM index name => exact ⟨var _ _ rfl, nofun, nofun⟩
  | TEMP index => exact ⟨var _ _ rfl, nofun, nofun⟩
  | binary op left right ihl ihr => exact ⟨binary op left right ihl.1 ihr.1, nofun, nofun⟩
  | NOT operand ih => exact ⟨not operand ih.1, nofun, nofun⟩
  | LOAD addr size ih => exact ⟨load addr size ih.1, nofun, nofun⟩
  | CAST type operand ih => exact ⟨cast type operand ih.1, nofun, nofun⟩
  | NEG operand ih =>
      refine ⟨?_, fun w hw => by cases hw; exact ih.1, nofun⟩
      by_cases hneg : ∃ w, operand = .NEG w
      · obtain ⟨w, rfl⟩ := hneg
        exact neg_neg w (ih.2.1 w rfl)
      · exact neg operand (fun w hw => hneg ⟨w, hw⟩) ih.1
  | ADDRESS operand ih =>
      refine ⟨?_, nofun, fun w hw => by cases hw; exact ih.1⟩
      by_cases haddress : ∃ w, operand = .ADDRESS w
      · obtain ⟨w, rfl⟩ := haddress
        exact address_address w (ih.2.2 w rfl)
      · exact address operand (fun w hw => haddress ⟨w, hw⟩) ih.1

end

section
variable {v : E9IRValue} {x : List UInt8} (h : varName v = some x)
include h

theorem names_var : names v = [x] := by
  cases v <;> cases h <;> rfl

theorem pieces_var (precedence : Int) : pieces v precedence = [x] := by
  cases v <;> cases h <;> rfl

theorem exprTokens_var (precedence : Int) : exprTokens v precedence = [.ident x] := by
  cases v <;> cases h <;> rfl

end

theorem exprTokens_neg {operand : E9IRValue} (h : ∀ w, operand ≠ .NEG w) (precedence : Int) :
    exprTokens (.NEG operand) precedence = .punct (ascii "-") :: exprTokens operand 2 := by
  cases operand <;> first | rfl | exact absurd rfl (h _)

theorem exprTokens_address {operand : E9IRValue} (h : ∀ w, operand ≠ .ADDRESS w) (precedence : Int) :
    exprTokens (.ADDRESS operand) precedence = .punct (ascii "&") :: exprTokens operand 2 := by
  cases operand <;> first | rfl | exact absurd rfl (h _)

/-! ### The text of an expression -/

theorem lexes_minus_minus {s : List UInt8} {ts : List CLang.Token} (h : CLang.Lexes s ts) :
    CLang.Lexes (ascii "--" ++ s) (.punct (ascii "--") :: ts) := by
  refine lexes_punct (by decide) (fun c _ => ?_) (startsOther_cons (by decide) (by decide) _) h
  rw [show CLang.followers (ascii "--") = [] by decide]
  exact List.not_mem_nil

theorem lexes_and_and {s : List UInt8} {ts : List CLang.Token} (h : CLang.Lexes s ts) :
    CLang.Lexes (ascii "&&" ++ s) (.punct (ascii "&&") :: ts) := by
  refine lexes_punct (by decide) (fun c _ => ?_) (startsOther_cons (by decide) (by decide) _) h
  rw [show CLang.followers (ascii "&&") = [] by decide]
  exact List.not_mem_nil

/-- The tokens are those of the text, at any place where an expression closes. -/
theorem lexes_pieces {v : E9IRValue} (precedence : Int) (hnames : ∀ x ∈ names v, CLang.IsIdent x) {s : List UInt8}
    {ts : List CLang.Token} (hs : Closes s) (h : CLang.Lexes s ts) :
    CLang.Lexes ((pieces v precedence).flatten ++ s) (exprTokens v precedence ++ ts) := by
  induction v using E9IRValue.adjacent_induction generalizing precedence s ts with
  | null => exact .token (CLang.nextToken_decimal 0 hs.stops) h
  | const constant =>
      rw [pieces, List.flatten_singleton]
      exact lexes_const constant hs h
  | var v x hx =>
      rw [names_var hx] at hnames
      rw [pieces_var hx, exprTokens_var hx, List.flatten_singleton]
      exact lexes_ident (hnames x (List.mem_singleton_self x)) hs.stops h
  | binary op left right ihl ihr =>
      have hleft : ∀ x ∈ names left, CLang.IsIdent x := fun x hx => hnames x (List.mem_append_left _ hx)
      have hright : ∀ x ∈ names right, CLang.IsIdent x := fun x hx => hnames x (List.mem_append_right _ hx)
      have hbody : ∀ {s : List UInt8} {ts : List CLang.Token}, Closes s → CLang.Lexes s ts →
          CLang.Lexes ((pieces left (op_precedence op)).flatten ++ (ascii " " ++ op_to_c op ++ ascii " " ++
              ((pieces right (op_precedence op)).flatten ++ s)))
            (exprTokens left (op_precedence op) ++ (opTokens op ++ (exprTokens right (op_precedence op) ++ ts))) := by
        intro s ts hs h
        refine ihl _ hleft ?_ (lexes_op op (ihr _ hright hs h))
        rw [List.append_assoc, List.append_assoc]
        exact closes_cons (by decide) _
      rw [pieces, exprTokens]
      split_ifs
      · have hclose : CLang.Lexes (ascii ")" ++ s) (CLang.rparen :: ts) := lexes_single (by decide) h
        have hparens : CLang.Lexes (ascii "(" ++ _) (CLang.lparen :: _) :=
          lexes_single (by decide) (@hbody (ascii ")" ++ s) _ (closes_cons (by decide) _) hclose)
        simpa [List.append_assoc] using hparens
      · simpa [List.append_assoc] using hbody hs h
  | neg_neg operand ih => exact lexes_minus_minus (ih 2 hnames hs h)
  | neg operand hneg ih =>
      obtain ⟨c, t, hc, hhead⟩ := head_pieces (v := operand) hnames
      rw [exprTokens_neg hneg]
      refine lexes_minus (fun d hd hmem => ?_) (ih 2 hnames hs h)
      rw [hc] at hd
      cases hd
      rcases hhead hmem with ⟨-, w, hw⟩ | ⟨hand, -⟩
      · exact absurd hw (hneg w)
      · exact hand
  | not operand ih => exact lexes_single (by decide) (ih 2 hnames hs h)
  | load addr size ih =>
      have hload := lexes_load size (ih 2 hnames hs h)
      simpa only [pieces, exprTokens, List.flatten_cons, List.append_assoc, List.cons_append] using hload
  | address_address operand ih => exact lexes_and_and (ih 2 hnames hs h)
  | address operand haddress ih =>
      obtain ⟨c, t, hc, hhead⟩ := head_pieces (v := operand) hnames
      rw [exprTokens_address haddress]
      refine lexes_and (fun d hd hmem => ?_) (ih 2 hnames hs h)
      rw [hc] at hd
      cases hd
      rcases hhead hmem with ⟨hminus, -⟩ | ⟨-, w, hw⟩
      · exact hminus
      · exact absurd hw (haddress w)
  | cast type operand ih =>
      have hcast := lexes_cast type (ih 2 hnames hs h)
      simpa only [pieces, exprTokens, List.flatten_cons, List.append_assoc, List.cons_append] using hcast

end E9Patch
