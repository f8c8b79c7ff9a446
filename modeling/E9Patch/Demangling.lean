import E9Patch.ItaniumMangling
import E9Patch.TypesModel

/-!
Mangled names of functions, and what `parseSymbol` makes of them. It reads the number of a substitution in base
10, up to `S9_`, and no substitution inside a type; it does not know pointers to `nullptr_t` nor lengths of
six digits, and where all arguments are in use it inserts the mangled name too.
-/

namespace E9Tool
open ItaniumMangling Numerals

/-- The builtin types that are supported. -/
inductive Builtin where
  | SCHAR
  | UCHAR
  | SHORT
  | USHORT
  | INT
  | UINT
  | LONG
  | ULONG
  | CHAR
  | VOID
  | NULLPTR
  deriving DecidableEq

/-- The text of a builtin type: `a`, `h`, `s`, `t`, `i`, `j`, `l`, `m`, `c`, `v` and `Dn`. -/
def Builtin.code : Builtin → List UInt8
  | .SCHAR => [0x61]
  | .UCHAR => [0x68]
  | .SHORT => [0x73]
  | .USHORT => [0x74]
  | .INT => [0x69]
  | .UINT => [0x6A]
  | .LONG => [0x6C]
  | .ULONG => [0x6D]
  | .CHAR => [0x63]
  | .VOID => [0x76]
  | .NULLPTR => [0x44, 0x6E]

def Builtin.type : Builtin → Nat
  | .SCHAR | .UCHAR => TYPE_INT8
  | .SHORT | .USHORT => TYPE_INT16
  | .INT | .UINT => TYPE_INT32
  | .LONG | .ULONG => TYPE_INT64
  | .CHAR => TYPE_CHAR
  | .VOID => TYPE_VOID
  | .NULLPTR => TYPE_NULL_PTR

/-- The type of a parameter: a value, or a pointer or double pointer to what may be constant. -/
inductive ParamType where
  | value (b : Builtin) (h : b ≠ .VOID)
  | pointer (const : Bool) (b : Builtin)
  | pointer2 (const : Bool) (b : Builtin)
  deriving DecidableEq

/-- A builtin type with its qualifier. -/
def qualified (const : Bool) (b : Builtin) : CType Builtin := if const then .const (.builtin b) else .builtin b

namespace ParamType

def ctype : ParamType → CType Builtin
  | value b _ => .builtin b
  | pointer k b => .ptr (qualified k b)
  | pointer2 k b => .ptr (.ptr (qualified k b))

/-- The type that a parameter has in a signature. -/
def type : ParamType → Nat
  | value b _ => b.type
  | pointer k b => b.type ||| TYPE_PTR ||| if k then TYPE_CONST else TYPE_NONE
  | pointer2 k b => b.type ||| TYPE_PTR_PTR ||| if k then TYPE_CONST else TYPE_NONE

end ParamType

/-- The signature with the types of the parameters from number `i` on. -/
def signatureFrom : Nat → Nat → List ParamType → Nat
  | _, sig, [] => sig
  | i, sig, p :: params => signatureFrom (i + 1) (setType sig p.type i) params

def signature (params : List ParamType) : Nat := signatureFrom 0 TYPESIG_EMPTY params

/-- The text of the parameters; none are mangled as `v`. -/
def paramsText (params : List ParamType) : List UInt8 :=
  if params = [] then [0x76] else mangleAll Builtin.code [] (params.map ParamType.ctype)

/-- The mangled name of a function. -/
def mangledName (name : List UInt8) (params : List ParamType) : List UInt8 :=
  ascii "_Z" ++ numeral 10 name.length ++ name ++ paramsText params

/-- Names are not empty and do not begin with a digit. -/
def IsName (name : List UInt8) : Prop := ∃ c s, name = c :: s ∧ isdigit c = false

/-- What `parseSymbol` can read, with the candidates before it: no number above ten, no pointer to `nullptr_t`,
and no double pointer whose pointer is a candidate and which is none itself. -/
structure Readable (dict : Dictionary Builtin) (p : ParamType) : Prop where
  number : ∀ i, dict.idxOf? p.ctype = some i → i ≤ 10
  pointee : p.ctype ∉ dict → ∀ k, p ≠ .pointer k .NULLPTR ∧ p ≠ .pointer2 k .NULLPTR
  whole : p.ctype ∉ dict → ∀ k b, p = .pointer2 k b → (ParamType.pointer k b).ctype ∉ dict

/-! ### The dictionary -/

/-- The type of a candidate. -/
def codeOf : CType Builtin → Nat
  | .builtin b => b.type
  | .const t => codeOf t ||| TYPE_CONST
  | .ptr t => if codeOf t &&& TYPE_PTR ≠ 0 then (codeOf t - TYPE_PTR) ||| TYPE_PTR_PTR else codeOf t ||| TYPE_PTR

theorem codeOf_ctype (p : ParamType) : codeOf p.ctype = p.type := by
  cases p with
  | value b h => rfl
  | pointer k b => cases k <;> cases b <;> rfl
  | pointer2 k b => cases k <;> cases b <;> rfl

/-- No builtin type is a candidate, and a qualified type only together with the pointer to it. -/
structure DictOk (dict : Dictionary Builtin) : Prop where
  builtin : ∀ b, .builtin b ∉ dict
  const : ∀ b, .const (.builtin b) ∈ dict → .ptr (.const (.builtin b)) ∈ dict

/-- The qualifier as text, and as a candidate. -/
def qualifier (k : Bool) : List UInt8 := if k then [0x4B] else []

def qualifiedCandidates (k : Bool) (b : Builtin) : Dictionary Builtin := if k then [.const (.builtin b)] else []

section
variable {dict : Dictionary Builtin}

theorem mangle_qualified (hdict : DictOk dict) {k : Bool} {b : Builtin} (h : .ptr (qualified k b) ∉ dict) :
    mangle Builtin.code dict (qualified k b) = (qualifier k ++ b.code, dict ++ qualifiedCandidates k b) := by
  cases k with
  | false => simp [qualified, qualifier, qualifiedCandidates, mangle]
  | true =>
      have hconst : .const (.builtin b) ∉ dict := fun hmem => h (hdict.const b hmem)
      simp only [qualified, if_true, mangle]
      rw [substitute_of_not_mem hconst]
      rfl

theorem mangle_pointer (hdict : DictOk dict) {k : Bool} {b : Builtin} (h : .ptr (qualified k b) ∉ dict) :
    mangle Builtin.code dict (.ptr (qualified k b)) =
      (0x50 :: (qualifier k ++ b.code), dict ++ qualifiedCandidates k b ++ [.ptr (qualified k b)]) := by
  rw [mangle, substitute_of_not_mem h, mangle_qualified hdict h]

theorem mangle_pointer2 (hdict : DictOk dict) {k : Bool} {b : Builtin} (h : .ptr (.ptr (qualified k b)) ∉ dict)
    (h' : .ptr (qualified k b) ∉ dict) : mangle Builtin.code dict (.ptr (.ptr (qualified k b))) =
      (0x50 :: 0x50 :: (qualifier k ++ b.code),
        dict ++ qualifiedCandidates k b ++ [.ptr (qualified k b), .ptr (.ptr (qualified k b))]) := by
  rw [mangle, substitute_of_not_mem h, mangle_pointer hdict h']
  simp

theorem mangle_of_idxOf {p : ParamType} {i : Nat} (h : dict.idxOf? p.ctype = some i) (hp : ∀ b hb, p ≠ .value b hb) :
    mangle Builtin.code dict p.ctype = (substitution i, dict) := by
  cases p with
  | value b hb => exact absurd rfl (hp b hb)
  | pointer k b => exact substitute_of_mem h _
  | pointer2 k b => exact substitute_of_mem h _

/-! ### One type -/

theorem isdigit_seqDigit : ∀ n < 36, isdigit (seqDigit n) = decide (n < 10) := by decide

theorem digit_seqDigit : ∀ n < 10, digit (seqDigit n) = n := by decide

theorem seqDigit_ne : ∀ n < 36, seqDigit n ≠ 0x5F := by decide

/-- Numbers are read back up to ten, and no others. -/
theorem parse_substitution (codes : List Nat) {i : Nat} (hi : i ≤ 36) (tail : List UInt8) :
    parseType codes (substitution i ++ tail) = if i ≤ 10 then (codes[i]?).map fun t => (t, codes, tail) else none := by
  cases i with
  | zero =>
      have hsubst : parseSubst codes (0x5F :: tail) = (codes[0]?).map fun t => (t, tail) := rfl
      have hparse : parseType codes (substitution 0 ++ tail) = (parseSubst codes (0x5F :: tail)).map fun r => (r.1, codes, r.2) :=
        rfl
      rw [hparse, hsubst, if_pos (by omega), Option.map_map]
      rfl
  | succ n =>
      have hdigits : seqDigits n n = [seqDigit n] := by
        cases n with
        | zero => rfl
        | succ n => exact if_pos (by omega)
      have hparse : parseType codes (substitution (n + 1) ++ tail) =
          (parseSubst codes (seqDigit n :: 0x5F :: tail)).map fun r => (r.1, codes, r.2) := by
        unfold substitution
        simp only [hdigits]
        rfl
      have hindex : parseIndex 2 0 true (seqDigit n :: 0x5F :: tail) =
          if n < 10 then (n, false, 0x5F :: tail) else (0, true, seqDigit n :: 0x5F :: tail) := by
        unfold parseIndex
        rw [isdigit_seqDigit n (by omega)]
        by_cases hn : n < 10
        · simp only [hn, decide_true, if_true, Nat.zero_mul, Nat.zero_add, digit_seqDigit n hn]
          rfl
        · simp only [hn, decide_false, Bool.false_eq_true, if_false]
      rw [hparse]
      unfold parseSubst
      rw [hindex]
      by_cases hn : n < 10
      · rw [if_pos hn, if_pos (by omega)]
        simp only [Bool.false_eq_true, if_false, Option.map_map]
        rfl
      · rw [if_neg hn, if_neg (by omega)]
        simp only [if_true]
        split
        · rename_i heq
          exact absurd (List.cons.inj heq).1 (seqDigit_ne n (by omega))
        · rfl

/-- A builtin type. -/
theorem parse_value (codes : List Nat) {b : Builtin} (hb : b ≠ .VOID) (tail : List UInt8) :
    parseType codes (b.code ++ tail) = some (b.type, codes, tail) := by
  have hnone : ∀ {t}, dictTypes t = [] → some (t, codes ++ dictTypes t, tail) = some (t, codes, tail) := by
    intro t ht
    rw [ht, List.append_nil]
  cases b with
  | VOID => exact absurd rfl hb
  | NULLPTR => rfl
  | _ => exact hnone rfl

/-- A pointer or double pointer, unless it is one to `nullptr_t`. -/
theorem parse_pointers (codes : List Nat) (double k : Bool) (b : Builtin) (tail : List UInt8) :
    parseType codes ((if double then [0x50, 0x50] else [0x50]) ++ (qualifier k ++ b.code) ++ tail) =
      if b = .NULLPTR then none
      else
        let t := b.type ||| (if double then TYPE_PTR_PTR else TYPE_PTR) ||| if k then TYPE_CONST else TYPE_NONE
        some (t, codes ++ dictTypes t, tail) := by
  cases double <;> cases k <;> cases b <;> rfl

/-- A substitution inside a type. -/
theorem parse_inside (codes : List Nat) (i : Nat) (tail : List UInt8) :
    parseType codes (0x50 :: substitution i ++ tail) = none := rfl

end

/-! ### Lists of types -/

theorem dictTypes_pointer (k : Bool) (b : Builtin) : dictTypes (ParamType.pointer k b).type =
    (qualifiedCandidates k b ++ [CType.ptr (qualified k b)]).map codeOf := by
  cases k <;> cases b <;> rfl

theorem dictTypes_pointer2 (k : Bool) (b : Builtin) : dictTypes (ParamType.pointer2 k b).type =
    (qualifiedCandidates k b ++ [CType.ptr (qualified k b), CType.ptr (.ptr (qualified k b))]).map codeOf := by
  cases k <;> cases b <;> rfl

section
variable {dict : Dictionary Builtin}

theorem idxOf_cases (dict : Dictionary Builtin) (t : CType Builtin) :
    t ∉ dict ∨ ∃ i, dict.idxOf? t = some i ∧ i < dict.length ∧ dict[i]? = some t := by
  cases hidx : dict.idxOf? t with
  | none => exact Or.inl (List.idxOf?_eq_none_iff.mp hidx)
  | some i =>
      have hget := mem_of_idxOf hidx
      exact Or.inr ⟨i, rfl, (List.getElem?_eq_some_iff.mp hget).1, hget⟩

/-- What is read of one parameter: its type and the candidates with it, or nothing. -/
structure Reads (dict : Dictionary Builtin) (p : ParamType) : Prop where
  readable : Readable dict p → ∀ tail, parseType (dict.map codeOf) ((mangle Builtin.code dict p.ctype).1 ++ tail) =
    some (p.type, (mangle Builtin.code dict p.ctype).2.map codeOf, tail)
  unreadable : ¬Readable dict p → ∀ tail,
    parseType (dict.map codeOf) ((mangle Builtin.code dict p.ctype).1 ++ tail) = none
  dict_ok : DictOk (mangle Builtin.code dict p.ctype).2
  length : (mangle Builtin.code dict p.ctype).2.length ≤ dict.length + 3

/-- A parameter that is a candidate. -/
theorem reads_candidate (hdict : DictOk dict) (hlen : dict.length ≤ 24) {p : ParamType} (hp : ∀ b hb, p ≠ .value b hb)
    {i : Nat} (hidx : dict.idxOf? p.ctype = some i) (hi : i < dict.length) (hget : dict[i]? = some p.ctype) :
    Reads dict p := by
  have hmangle := mangle_of_idxOf hidx hp
  have hmem : p.ctype ∈ dict := List.mem_of_getElem? hget
  have hparse : ∀ tail, parseType (dict.map codeOf) (substitution i ++ tail) =
      if i ≤ 10 then some (p.type, dict.map codeOf, tail) else none := by
    intro tail
    rw [parse_substitution _ (by omega), List.getElem?_map, hget, ← codeOf_ctype]
    rfl
  have hreadable : Readable dict p ↔ i ≤ 10 := by
    refine ⟨fun h => h.number i hidx, fun h => ⟨fun j hj => ?_, fun hno => absurd hmem hno, fun hno => absurd hmem hno⟩⟩
    rw [hidx] at hj
    exact Option.some.inj hj ▸ h
  refine ⟨fun h tail => ?_, fun h tail => ?_, ?_, ?_⟩
  · rw [hmangle, hparse, if_pos (hreadable.mp h)]
  · rw [hmangle, hparse, if_neg (fun hi => h (hreadable.mpr hi))]
  · rw [hmangle]
    exact hdict
  · rw [hmangle]
    exact Nat.le_add_right _ _

theorem DictOk.append (hdict : DictOk dict) {k : Bool} {b : Builtin} {more : Dictionary Builtin}
    (hmore : ∀ t ∈ more, ∃ u, t = .ptr u) (hptr : .ptr (qualified k b) ∈ more) :
    DictOk (dict ++ qualifiedCandidates k b ++ more) := by
  refine ⟨fun c hc => ?_, fun c hc => ?_⟩
  · rcases List.mem_append.mp hc with hc | hc
    · rcases List.mem_append.mp hc with hc | hc
      · exact hdict.builtin c hc
      · unfold qualifiedCandidates at hc
        split at hc
        · cases List.mem_singleton.mp hc
        · cases hc
    · obtain ⟨u, hu⟩ := hmore _ hc
      cases hu
  · rcases List.mem_append.mp hc with hc | hc
    · rcases List.mem_append.mp hc with hc | hc
      · exact List.mem_append_left _ (List.mem_append_left _ (hdict.const c hc))
      · unfold qualifiedCandidates at hc
        split at hc
        · rename_i hk
          cases List.mem_singleton.mp hc
          unfold qualified at hptr
          rw [if_pos hk] at hptr
          exact List.mem_append_right _ hptr
        · cases hc
    · obtain ⟨u, hu⟩ := hmore _ hc
      cases hu

theorem qualifiedCandidates_length (k : Bool) (b : Builtin) : (qualifiedCandidates k b).length ≤ 1 := by
  cases k
  · exact Nat.zero_le 1
  · exact Nat.le_refl 1

theorem reads (hdict : DictOk dict) (hlen : dict.length ≤ 24) (p : ParamType) : Reads dict p := by
  cases p with
  | value b hb =>
      have hmem : (ParamType.value b hb).ctype ∉ dict := hdict.builtin b
      have hreadable : Readable dict (.value b hb) := by
        refine ⟨fun i hi => ?_, fun _ k => ⟨nofun, nofun⟩, fun _ k b' heq => nomatch heq⟩
        exact absurd (List.mem_of_getElem? (mem_of_idxOf hi)) hmem
      exact ⟨fun _ tail => parse_value _ hb tail, fun h => absurd hreadable h, hdict, Nat.le_add_right _ _⟩
  | pointer k b =>
      rcases idxOf_cases dict (ParamType.pointer k b).ctype with hno | ⟨i, hidx, hi, hget⟩
      · have hmangle := mangle_pointer hdict hno
        have hparse := parse_pointers (dict.map codeOf) false k b
        have hreadable : Readable dict (.pointer k b) ↔ b ≠ .NULLPTR := by
          refine ⟨fun h hb => (h.pointee hno k).1 (by rw [hb]), fun hb => ⟨fun i hi => ?_, fun _ j => ⟨?_, nofun⟩,
            fun _ k' b' heq => nomatch heq⟩⟩
          · exact absurd (List.mem_of_getElem? (mem_of_idxOf hi)) hno
          · intro heq
            cases heq
            exact hb rfl
        have hall : (mangle Builtin.code dict (ParamType.pointer k b).ctype).2.map codeOf =
            dict.map codeOf ++ dictTypes (ParamType.pointer k b).type := by
          rw [ParamType.ctype, hmangle, dictTypes_pointer, List.append_assoc, List.map_append]
        refine ⟨fun h tail => ?_, fun h tail => ?_, ?_, ?_⟩
        · rw [hall, ParamType.ctype, hmangle]
          exact (hparse tail).trans (if_neg (hreadable.mp h))
        · rw [ParamType.ctype, hmangle]
          exact (hparse tail).trans (if_pos (not_not.mp fun hb => h (hreadable.mpr hb)))
        · rw [ParamType.ctype, hmangle]
          exact hdict.append (fun t ht => ⟨_, List.mem_singleton.mp ht⟩) List.mem_cons_self
        · have := qualifiedCandidates_length k b
          rw [ParamType.ctype, hmangle]
          simp only [List.length_append, List.length_singleton]
          omega
      · exact reads_candidate hdict hlen nofun hidx hi hget
  | pointer2 k b =>
      rcases idxOf_cases dict (ParamType.pointer2 k b).ctype with hno | ⟨i, hidx, hi, hget⟩
      · rcases idxOf_cases dict (.ptr (qualified k b)) with hno' | ⟨i, hidx, hi, hget⟩
        · have hmangle := mangle_pointer2 hdict hno hno'
          have hparse := parse_pointers (dict.map codeOf) true k b
          have hreadable : Readable dict (.pointer2 k b) ↔ b ≠ .NULLPTR := by
            refine ⟨fun h hb => (h.pointee hno k).2 (by rw [hb]),
              fun hb => ⟨fun i hi => ?_, fun _ j => ⟨nofun, ?_⟩, fun _ k' b' heq => ?_⟩⟩
            · exact absurd (List.mem_of_getElem? (mem_of_idxOf hi)) hno
            · intro heq
              cases heq
              exact hb rfl
            · cases heq
              exact hno'
          have hall : (mangle Builtin.code dict (ParamType.pointer2 k b).ctype).2.map codeOf =
              dict.map codeOf ++ dictTypes (ParamType.pointer2 k b).type := by
            rw [ParamType.ctype, hmangle, dictTypes_pointer2, List.append_assoc, List.map_append]
          refine ⟨fun h tail => ?_, fun h tail => ?_, ?_, ?_⟩
          · rw [hall, ParamType.ctype, hmangle]
            exact (hparse tail).trans (if_neg (hreadable.mp h))
          · rw [ParamType.ctype, hmangle]
            exact (hparse tail).trans (if_pos (not_not.mp fun hb => h (hreadable.mpr hb)))
          · rw [ParamType.ctype, hmangle]
            refine hdict.append (fun t ht => ?_) List.mem_cons_self
            rcases List.mem_cons.mp ht with rfl | ht
            · exact ⟨_, rfl⟩
            · exact ⟨_, List.mem_singleton.mp ht⟩
          · have := qualifiedCandidates_length k b
            rw [ParamType.ctype, hmangle]
            simp only [List.length_append, List.length_cons, List.length_nil]
            omega
        · -- the pointer inside is a candidate
          have hunreadable : ¬Readable dict (.pointer2 k b) :=
            fun h => h.whole hno k b rfl (List.mem_of_getElem? hget)
          have hinner : mangle Builtin.code dict (.ptr (qualified k b)) = (substitution i, dict) := by
            rw [mangle, substitute_of_mem hidx]
          have hmangle : mangle Builtin.code dict (ParamType.pointer2 k b).ctype =
              (0x50 :: substitution i, dict ++ [.ptr (.ptr (qualified k b))]) := by
            have hno : CType.ptr (.ptr (qualified k b)) ∉ dict := hno
            rw [ParamType.ctype, mangle, substitute_of_not_mem hno, hinner]
          refine ⟨fun h => absurd h hunreadable, fun _ tail => ?_, ?_, ?_⟩
          · rw [hmangle]
            exact parse_inside _ i tail
          · rw [hmangle]
            refine ⟨fun c hc => ?_, fun c hc => ?_⟩
            · rcases List.mem_append.mp hc with hc | hc
              · exact hdict.builtin c hc
              · cases List.mem_singleton.mp hc
            · rcases List.mem_append.mp hc with hc | hc
              · exact List.mem_append_left _ (hdict.const c hc)
              · cases List.mem_singleton.mp hc
          · rw [hmangle]
            simp only [List.length_append, List.length_singleton]
            omega
      · exact reads_candidate hdict hlen nofun hidx hi hget

/-- All parameters are readable, each with the candidates before it. -/
def AllReadable : Dictionary Builtin → List ParamType → Prop
  | _, [] => True
  | dict, p :: params => Readable dict p ∧ AllReadable (mangle Builtin.code dict p.ctype).2 params

/-- The text of a parameter is not empty, and not that of `void`. -/
theorem mangle_head (dict : Dictionary Builtin) (p : ParamType) :
    ∃ c s, (mangle Builtin.code dict p.ctype).1 = c :: s ∧ c ≠ 0x76 := by
  have hsubst : ∀ (t : CType Builtin) (s : List UInt8) (d : Dictionary Builtin),
      ∃ c s', (substitute dict t (0x50 :: s, d)).1 = c :: s' ∧ c ≠ 0x76 := by
    intro t s d
    unfold substitute
    split
    · exact ⟨0x53, _, rfl, by decide⟩
    · exact ⟨0x50, _, rfl, by decide⟩
  cases p with
  | value b hb =>
      cases b with
      | VOID => exact absurd rfl hb
      | _ => exact ⟨_, _, rfl, by decide⟩
  | pointer k b => exact hsubst _ _ _
  | pointer2 k b => exact hsubst _ _ _

theorem mangleAll_head (dict : Dictionary Builtin) (p : ParamType) (params : List ParamType) :
    ∃ c s, mangleAll Builtin.code dict ((p :: params).map ParamType.ctype) = c :: s ∧ c ≠ 0x76 := by
  obtain ⟨c, s, hhead, hc⟩ := mangle_head dict p
  refine ⟨c, s ++ mangleAll Builtin.code (mangle Builtin.code dict p.ctype).2 (params.map ParamType.ctype), ?_, hc⟩
  rw [List.map_cons, mangleAll, hhead]
  rfl

/-- The loop over the parameters. -/
theorem parseTypes_mangled {params : List ParamType} {n i sig : Nat} (hdict : DictOk dict)
    (hlen : dict.length + 3 * params.length ≤ 24) (hn : params.length ≤ n) :
    (AllReadable dict params →
      parseTypes n i sig (dict.map codeOf) (mangleAll Builtin.code dict (params.map ParamType.ctype)) =
        some (i + params.length, signatureFrom i sig params)) ∧
    (¬AllReadable dict params →
      parseTypes n i sig (dict.map codeOf) (mangleAll Builtin.code dict (params.map ParamType.ctype)) = none) := by
  induction params generalizing dict n i sig with
  | nil =>
      refine ⟨fun _ => ?_, fun h => absurd trivial h⟩
      cases n <;> rfl
  | cons p params ih =>
      rw [List.length_cons] at hlen hn
      obtain ⟨n, rfl⟩ : ∃ m, n = m + 1 := ⟨n - 1, by omega⟩
      have hreads := reads hdict (by omega) p
      have hlength := hreads.length
      obtain ⟨hgood, hbad⟩ := @ih (mangle Builtin.code dict p.ctype).2 n (i + 1) (setType sig p.type i) hreads.dict_ok
        (by omega) (by omega)
      obtain ⟨c, s, hhead, -⟩ := mangleAll_head dict p params
      have hunfold : parseTypes (n + 1) i sig (dict.map codeOf)
          (mangleAll Builtin.code dict ((p :: params).map ParamType.ctype)) =
            (parseType (dict.map codeOf) ((mangle Builtin.code dict p.ctype).1 ++
              mangleAll Builtin.code (mangle Builtin.code dict p.ctype).2 (params.map ParamType.ctype))).bind
            fun r => parseTypes n (i + 1) (setType sig r.1 i) r.2.1 r.2.2 := by
        rw [hhead, parseTypes]
        · rw [← hhead]
          rfl
        · exact List.cons_ne_nil _ _
      rw [hunfold]
      by_cases hp : Readable dict p
      · rw [hreads.readable hp]
        refine ⟨fun h => ?_, fun h => hbad fun hrest => h ⟨hp, hrest⟩⟩
        refine (hgood h.2).trans ?_
        rw [List.length_cons, show i + 1 + params.length = i + (params.length + 1) by omega]
        rfl
      · rw [hreads.unreadable hp]
        exact ⟨fun h => absurd h.1 hp, fun _ => rfl⟩

end

/-- What `parseSymbol` demangles: a length of at most five digits, fewer than all arguments, and readable types. -/
structure Demanglable (name : List UInt8) (params : List ParamType) : Prop where
  length : name.length < 100000
  few : params.length < MAX_ARGNO
  readable : AllReadable [] params

theorem parseArgs_mangled {params : List ParamType} (hparams : params.length ≤ MAX_ARGNO) :
    (AllReadable [] params → parseArgs (paramsText params) = some (params.length, signature params)) ∧
      (¬AllReadable [] params → parseArgs (paramsText params) = none) := by
  unfold MAX_ARGNO at hparams
  cases params with
  | nil => exact ⟨fun _ => rfl, fun h => absurd trivial h⟩
  | cons p params =>
      obtain ⟨c, s, hhead, hc⟩ := mangleAll_head [] p params
      have htext : paramsText (p :: params) = mangleAll Builtin.code [] ((p :: params).map ParamType.ctype) :=
        if_neg (List.cons_ne_nil _ _)
      have hvoid : paramsText (p :: params) ≠ [0x76] := by
        rw [htext, hhead]
        exact fun heq => hc (List.cons.inj heq).1
      have hok : DictOk [] := ⟨fun _ => List.not_mem_nil, fun _ hmem => absurd hmem List.not_mem_nil⟩
      have hparse := @parseTypes_mangled [] (p :: params) MAX_ARGNO 0 TYPESIG_EMPTY hok
        (by rw [List.length_nil]; omega) hparams
      rw [Nat.zero_add] at hparse
      unfold parseArgs
      rw [if_neg hvoid, htext]
      exact hparse

/-! ### The length of the name -/

theorem isDigit_ten (c : UInt8) : isDigit 10 c = isdigit c := by
  unfold isDigit isdigit digitValue
  have htoNat : ∀ a b : UInt8, a ≤ b ↔ a.toNat ≤ b.toNat := fun _ _ => Iff.rfl
  by_cases hc : 0x30 ≤ c ∧ c ≤ 0x39
  · rw [if_pos hc]
    simp only [htoNat, UInt8.reduceToNat] at hc ⊢
    exact decide_eq_decide.mpr ⟨fun _ => hc, fun _ => by omega⟩
  · rw [if_neg hc]
    refine decide_eq_decide.mpr ⟨fun h => ?_, fun h => absurd h hc⟩
    split at h
    · omega
    · split at h <;> omega

theorem digit_eq {c : UInt8} (hc : isdigit c = true) : digit c = digitValue c := by
  unfold digit digitValue
  rw [if_pos (of_decide_eq_true hc)]

/-- The digits of a length are read, if there are not too many. -/
theorem parseLength_digits {ds rest : List UInt8} (hds : ∀ c ∈ ds, isdigit c = true)
    (hrest : ∀ c ∈ rest.head?, isdigit c = false) {i len : Nat} (hi : i ≤ 4) :
    parseLength i len (ds ++ rest) =
      if i + ds.length ≤ 4 then some (ds.foldl (fun x c => 10 * x + digitValue c) len, rest) else none := by
  induction ds generalizing i len with
  | nil =>
      rw [List.nil_append, List.length_nil, if_pos (by omega)]
      cases rest with
      | nil => rfl
      | cons c rest =>
          have hc := hrest c rfl
          rw [parseLength, if_neg (by rw [hc]; exact Bool.false_ne_true)]
          rfl
  | cons c ds ih =>
      obtain ⟨hc, hds⟩ := List.forall_mem_cons.mp hds
      rw [List.cons_append, parseLength, if_pos hc, List.length_cons]
      by_cases hmany : i > 3
      · rw [if_pos hmany, if_neg (by omega)]
      · rw [if_neg hmany, ih hds (by omega), show i + 1 + ds.length = i + (ds.length + 1) by omega, List.foldl_cons,
          digit_eq hc, Nat.mul_comm len 10]

/-- The parts of a mangled name. -/
theorem parse_mangled {name : List UInt8} (hname : IsName name) (params : List ParamType) (symbols : Symbols) (addr : Int) :
    parseSymbol symbols (mangledName name params) addr =
      if name.length < 100000 then
        match parseArgs (paramsText params) with
        | none => insertSymbol symbols (mangledName name params) TYPESIG_UNTYPED addr
        | some (i, sig) =>
          insertSymbol (if i ≥ MAX_ARGNO then insertSymbol symbols (mangledName name params) TYPESIG_UNTYPED addr
            else symbols) name sig addr
      else symbols := by
  obtain ⟨c₀, s₀, hc₀, hdigit₀⟩ := hname
  have hpos : 0 < name.length := by
    rw [hc₀]
    exact Nat.succ_pos _
  obtain ⟨c, ds, hnumeral, hc⟩ := @numeral_head 10 _ (by decide) (by decide) hpos
  have hdigits : ∀ e ∈ c :: ds, isdigit e = true := by
    intro e he
    rw [← hnumeral] at he
    rw [← isDigit_ten]
    exact numeral_digits (by decide) (by decide) _ e he
  obtain ⟨hdigit, hds⟩ := List.forall_mem_cons.mp hdigits
  have hvalue : ds.foldl (fun x c => 10 * x + digitValue c) (digit c) = name.length := by
    have hof := @ofDigits_numeral 10 (by decide) (by decide) name.length
    rw [hnumeral] at hof
    unfold ofDigits at hof
    rw [List.foldl_cons, Nat.mul_zero, Nat.zero_add] at hof
    rw [digit_eq hdigit]
    exact hof
  have hlen : 0 + ds.length ≤ 4 ↔ name.length < 100000 := by
    have hiff := @Nat.length_toDigits_le_iff 10 name.length 5 (by decide) (by decide)
    have hsame : (numeral 10 name.length).length = (Nat.toDigits 10 name.length).length := List.length_map _
    rw [hnumeral, List.length_cons] at hsame
    omega
  have hmangled : mangledName name params = 0x5F :: 0x5A :: c :: (ds ++ (name ++ paramsText params)) := by
    unfold mangledName
    rw [hnumeral, List.append_assoc, List.append_assoc]
    rfl
  have hread : parseLength 0 (digit c) (ds ++ (name ++ paramsText params)) =
      if name.length < 100000 then some (name.length, name ++ paramsText params) else none := by
    rw [parseLength_digits hds (fun e he => by rw [hc₀] at he; cases he; exact hdigit₀) (Nat.zero_le _), hvalue]
    exact if_congr hlen rfl rfl
  have htext : paramsText params ≠ [] := by
    unfold paramsText
    split
    · exact List.cons_ne_nil _ _
    · cases params with
      | nil => contradiction
      | cons p params =>
          obtain ⟨e, s, hhead, -⟩ := mangleAll_head [] p params
          rw [hhead]
          exact List.cons_ne_nil _ _
  rw [hmangled]
  unfold parseSymbol
  simp only
  rw [if_pos ⟨hdigit, hc⟩, hread]
  by_cases hlength : name.length < 100000
  · have hmore : ¬name.length ≥ (name ++ paramsText params).length := by
      have := List.length_pos_of_ne_nil htext
      rw [List.length_append]
      omega
    rw [if_pos hlength, if_pos hlength]
    have htake : (name ++ paramsText params).take name.length = name := List.take_left
    simp only [if_neg hmore, List.drop_left]
    exact htake.symm ▸ rfl
  · rw [if_neg hlength, if_neg hlength]

/-- A mangled name gives exactly its function exactly if it is demanglable. -/
theorem demangled_iff {name : List UInt8} (hname : IsName name) {params : List ParamType}
    (hparams : params.length ≤ MAX_ARGNO) :
    (∀ symbols addr, parseSymbol symbols (mangledName name params) addr =
      insertSymbol symbols name (signature params) addr) ↔ Demanglable name params := by
  have hne : mangledName name params ≠ name := by
    intro heq
    have hlen := congrArg List.length heq
    unfold mangledName at hlen
    have htwo : (ascii "_Z").length = 2 := rfl
    simp only [List.length_append, htwo] at hlen
    omega
  obtain ⟨hgood, hbad⟩ := parseArgs_mangled hparams
  constructor
  · intro h
    have hempty := h [] 0
    rw [parse_mangled hname] at hempty
    have hlength : name.length < 100000 := by
      by_contra hlength
      rw [if_neg hlength] at hempty
      cases hempty
    rw [if_pos hlength] at hempty
    have hreadable : AllReadable [] params := by
      by_contra hreadable
      rw [hbad hreadable] at hempty
      simp only [insertSymbol, OrderedMap.insert, OrderedMap.alter, List.cons.injEq, Prod.mk.injEq, Symbol.mk.injEq] at hempty
      exact hne hempty.1.1.1
    refine ⟨hlength, ?_, hreadable⟩
    by_contra hfew
    rw [hgood hreadable] at hempty
    simp only [ge_iff_le, Nat.not_lt.mp hfew, if_true] at hempty
    simp only [insertSymbol, OrderedMap.insert, OrderedMap.alter] at hempty
    split at hempty
    · have hlen := congrArg List.length hempty
      simp at hlen
    · split at hempty
      · have hlen := congrArg List.length hempty
        simp at hlen
      · simp only [List.cons.injEq, Prod.mk.injEq, Symbol.mk.injEq] at hempty
        exact hne hempty.1.1.1
  · rintro ⟨hlength, hfew, hreadable⟩ symbols addr
    rw [parse_mangled hname, if_pos hlength, hgood hreadable]
    simp only
    rw [if_neg (by omega)]

/-- `f(const char *, const char *)`, which is `_Z1fPKcS0_`. -/
theorem same_pointer_demangled :
    (∀ symbols addr,
      parseSymbol symbols (mangledName (ascii "f") [.pointer true .CHAR, .pointer true .CHAR]) addr =
        insertSymbol symbols (ascii "f") (signature [.pointer true .CHAR, .pointer true .CHAR]) addr) ↔
      Demanglable (ascii "f") [.pointer true .CHAR, .pointer true .CHAR] :=
  demangled_iff ⟨0x66, [], rfl, rfl⟩ (by decide)

/-- `f(char *, char **)` is `_Z1fPcPS_`, and stays untyped. -/
theorem pointer_to_candidate_missed : ¬∀ name params, IsName name → params.length ≤ MAX_ARGNO →
    ∀ symbols addr, parseSymbol symbols (mangledName name params) addr =
      insertSymbol symbols name (signature params) addr := by
  intro h
  have heq := h (ascii "f") [.pointer false .CHAR, .pointer2 false .CHAR] ⟨0x66, [], rfl, rfl⟩ (by decide) [] 0
  have hne : parseSymbol [] (mangledName (ascii "f") [.pointer false .CHAR, .pointer2 false .CHAR]) 0 ≠
      insertSymbol [] (ascii "f") (signature [.pointer false .CHAR, .pointer2 false .CHAR]) 0 := by
    decide
  exact hne heq

end E9Tool
