import Mathlib.Data.List.TakeWhile
import E9Patch.JsonRoundTrip

/-!
Symbols written to a file and read back (`e9_symbols_export` and `e9_symbols_import`). A file is the list of its
bytes. The reader takes the header for a symbol, since `Add` is a hexadecimal number, and drops the sizes. A type
is an `int`, as it is printed and read; memory is there, and a name that is missing is written as an empty one.
-/

namespace E9Patch
open Bytes Numerals

set_option maxRecDepth 20000

def E9_SYM_UNKNOWN : Int := 0
def E9_SYM_FUNCTION : Int := 1

structure ExportSymbol where
  name : List UInt8
  address : Nat
  size : Nat
  type : Int
  deriving DecidableEq, Repr

/-! ### Export -/

def csvHeader : List UInt8 := ascii "Name,Address,Size,Type\n"

/-- `fprintf(fp, "%s,0x%lx,%lu,%d\n", ...)`. -/
def csvLine (s : ExportSymbol) : List UInt8 :=
  s.name ++ 0x2c :: (ascii "0x" ++ numeral 16 s.address ++ 0x2c :: (numeral 10 s.size ++ 0x2c ::
    (signedNumeral s.type ++ [0x0a])))

/-- `fprintf(fp, "MakeName(0x%lx, \"%s\");\n", ...)`. -/
def idaLine (s : ExportSymbol) : List UInt8 :=
  ascii "MakeName(0x" ++ numeral 16 s.address ++ ascii ", \"" ++ s.name ++ ascii "\");\n"

/-- The file that is written; the format is `none` for a null pointer. -/
def e9_symbols_export (symbols : List ExportSymbol) (format : Option (List UInt8)) : List UInt8 :=
  if format.all (· = ascii "ghidra") then csvHeader ++ symbols.flatMap csvLine
  else if format = some (ascii "ida") then symbols.flatMap idaLine
  else []

/-! ### Import -/

/-- `fgets` of at most `n` characters: the line with its newline, and what is behind it. -/
def fgets : Nat → List UInt8 → List UInt8 × List UInt8
  | 0, text => ([], text)
  | _ + 1, [] => ([], [])
  | n + 1, c :: text => if c = 0x0a then ([c], text) else (c :: (fgets n text).1, (fgets n text).2)

/-- An unsigned conversion of `scanf`: what `strtoul` takes. -/
def scanUnsigned (base : Nat) (s : List UInt8) : Option (Nat × List UInt8) :=
  let r := strtoull s base
  if r.2.1 = s then none else some (r.1, r.2.1)

/-- `%d`: a `long` that is cut to an `int`. -/
def scanInt (s : List UInt8) : Option (Int × List UInt8) :=
  let t := s.dropWhile isspace
  let neg := t.head? = some 0x2d
  let d := spanDigits 10 (if neg ∨ t.head? = some 0x2b then t.tail else t)
  if d.1 = [] then none
  else
    let x : Int := ofDigits 10 d.1
    some (signed32 (max (-2 ^ 63) (min (if neg then -x else x) (2 ^ 63 - 1))), d.2)

/-- A literal comma of the format. -/
def scanComma (s : List UInt8) : Option (List UInt8) := if s.head? = some 0x2c then some s.tail else none

/-- `",%*u,%d"`: the type, where it is there. -/
def scanType (s : List UInt8) : Option Int := do
  let s ← scanComma s
  let (_, s) ← scanUnsigned 10 s
  let s ← scanComma s
  let (type, _) ← scanInt s
  some type

/-- `sscanf(line, "%255[^,],%lx,%*u,%d", ...)` with at least two conversions: the name, the address and the type. -/
def scanSymbol (line : List UInt8) : Option (List UInt8 × Nat × Option Int) :=
  let s := cString line
  let name := (s.takeWhile (· ≠ 0x2c)).take 255
  if name = [] then none
  else do
    let s ← scanComma (s.drop name.length)
    let (addr, s) ← scanUnsigned 16 s
    some (name, addr, scanType s)

/-- `e9_symbol_add` in front of the list; nothing sets the size. -/
def e9_symbol_add (symbols : List ExportSymbol) (name : List UInt8) (addr : Nat) (type : Int) : List ExportSymbol :=
  ⟨name, addr, 0, type⟩ :: symbols

/-- What a line adds; the type is `E9_SYM_UNKNOWN` where none is read. -/
def importLine (symbols : List ExportSymbol) (line : List UInt8) : List ExportSymbol :=
  match scanSymbol line with
  | none => symbols
  | some (name, addr, type) => e9_symbol_add symbols name addr (type.getD E9_SYM_UNKNOWN)

/-- The loop over the lines of the file; a line has a character at least. -/
def importLines : Nat → List UInt8 → List ExportSymbol → List ExportSymbol
  | 0, _, symbols => symbols
  | fuel + 1, text, symbols =>
    if text = [] then symbols
    else importLines fuel (fgets 1023 text).2 (importLine symbols (fgets 1023 text).1)

def e9_symbols_import (symbols : List ExportSymbol) (text : List UInt8) : List ExportSymbol :=
  importLines text.length text symbols

/-! ### What is to come back -/

/-- A symbol whose name is not empty, has at most 255 bytes and none that ends a field or a line. -/
structure ExportSymbol.Exportable (s : ExportSymbol) : Prop where
  named : s.name ≠ []
  length : s.name.length ≤ 255
  plain : ∀ c ∈ s.name, c ≠ 0x2c ∧ c ≠ 0x0a ∧ c ≠ 0x0d ∧ c ≠ 0
  address : s.address < 2 ^ 64
  size : s.size < 2 ^ 64
  type : -2 ^ 31 ≤ s.type ∧ s.type < 2 ^ 31

/-- An empty binary gets the symbols that were exported, in some order, and nothing else. -/
def ComesBack (symbols : List ExportSymbol) : Prop :=
  (e9_symbols_import [] (e9_symbols_export symbols (some (ascii "ghidra")))).Perm symbols

/-- The symbol that the header is taken for. -/
def headerSymbol : ExportSymbol := ⟨ascii "Name", 0xADD, 0, E9_SYM_UNKNOWN⟩

/-! ### One line -/

/-- A line in front of what follows it is read as one. -/
theorem fgets_line {n : Nat} {line rest : List UInt8} (hlen : line.length < n) (hline : ∀ c ∈ line, c ≠ 0x0a) :
    fgets n (line ++ 0x0a :: rest) = (line ++ [0x0a], rest) := by
  induction line generalizing n with
  | nil =>
      obtain ⟨n, rfl⟩ : ∃ m, n = m + 1 := ⟨n - 1, by simp only [List.length_nil] at hlen; omega⟩
      rfl
  | cons c line ih =>
      obtain ⟨n, rfl⟩ : ∃ m, n = m + 1 := ⟨n - 1, by simp only [List.length_cons] at hlen; omega⟩
      have htail := ih (n := n) (by simpa using hlen) fun d hd => hline d (List.mem_cons_of_mem _ hd)
      rw [List.cons_append, fgets, if_neg (hline c List.mem_cons_self), htail]
      rfl

/-- The digits of a number are none of the bytes that end a field or a line. -/
theorem numeral_plain {base : Nat} (hb : 1 < base) (hb' : base ≤ 16) (n : Nat) :
    ∀ c ∈ numeral base n, c ≠ 0x2c ∧ c ≠ 0x0a ∧ c ≠ 0 := by
  have hdigit : ∀ c, isDigit 16 c = true → c ≠ 0x2c ∧ c ≠ 0x0a ∧ c ≠ 0 := by decide
  intro c hc
  have hlt : digitValue c < base := of_decide_eq_true (numeral_digits hb hb' n c hc)
  exact hdigit c (decide_eq_true (by omega))

theorem signedNumeral_plain (x : Int) : ∀ c ∈ signedNumeral x, c ≠ 0x0a ∧ c ≠ 0 := by
  intro c hc
  unfold signedNumeral at hc
  split at hc
  · rcases List.mem_cons.mp hc with rfl | hc
    · decide
    · exact (numeral_plain (by decide) (by decide) _ c hc).2
  · exact (numeral_plain (by decide) (by decide) _ c hc).2

theorem signedNumeral_length {x : Int} (hx : -2 ^ 31 ≤ x ∧ x < 2 ^ 31) : (signedNumeral x).length ≤ 11 := by
  unfold signedNumeral
  split
  · exact Nat.succ_le_succ (@numeral_length 10 _ 10 (by decide) (by decide) (by omega))
  · exact Nat.le_succ_of_le (@numeral_length 10 _ 10 (by decide) (by decide) (by omega))

theorem scanComma_cons (rest : List UInt8) : scanComma (0x2c :: rest) = some rest := rfl

/-- An unsigned number is scanned up to the comma behind it. -/
theorem scanUnsigned_hex {n : Nat} (hn : n < 2 ^ 64) (rest : List UInt8) :
    scanUnsigned 16 (ascii "0x" ++ numeral 16 n ++ 0x2c :: rest) = some (n, 0x2c :: rest) := by
  have hcomma : ∀ c ∈ (0x2c :: rest : List UInt8).head?, isDigit 16 c = false := by
    rintro c ⟨⟩
    decide
  unfold scanUnsigned
  rw [strtoull_hex_then hn hcomma]
  refine if_neg fun heq => ?_
  have hlen := congrArg List.length heq
  simp only [List.length_append, List.length_cons] at hlen
  have hzero : (ascii "0x").length = 2 := rfl
  omega

theorem scanUnsigned_decimal {n : Nat} (hn : n < 2 ^ 64) (rest : List UInt8) :
    scanUnsigned 10 (numeral 10 n ++ 0x2c :: rest) = some (n, 0x2c :: rest) := by
  have hcomma : ∀ c ∈ (0x2c :: rest : List UInt8).head?, isDigit 10 c = false := by
    rintro c ⟨⟩
    decide
  unfold scanUnsigned
  rw [strtoull_decimal_then hn hcomma]
  refine if_neg fun heq => ?_
  have hlen := congrArg List.length heq
  have hpos := List.length_pos_of_ne_nil (numeral_ne_nil 10 n)
  simp only [List.length_append, List.length_cons] at hlen
  omega

/-- An `int` is scanned up to the end of the line. -/
theorem scanInt_signed {x : Int} (hx : -2 ^ 31 ≤ x ∧ x < 2 ^ 31) :
    scanInt (signedNumeral x ++ [0x0a]) = some (x, [0x0a]) := by
  have hend : ∀ c ∈ ([0x0a] : List UInt8).head?, isDigit 10 c = false := by
    rintro c ⟨⟩
    decide
  have hspan : ∀ n, spanDigits 10 (numeral 10 n ++ [0x0a]) = (numeral 10 n, [0x0a]) :=
    fun n => spanDigits_numeral (by decide) (by decide) n hend
  have hvalue : ∀ n, ofDigits 10 (numeral 10 n) = n := ofDigits_numeral (by decide) (by decide)
  unfold scanInt signedNumeral
  by_cases hneg : x < 0
  · have hspace : (0x2d :: numeral 10 (-x).toNat ++ [0x0a]).dropWhile isspace = 0x2d :: (numeral 10 (-x).toNat ++ [0x0a]) := by
      rw [List.cons_append, List.dropWhile_cons, if_neg (by decide)]
    rw [if_pos hneg, hspace]
    dsimp only
    rw [List.head?_cons, if_pos (Or.inl rfl), List.tail_cons, hspan, if_neg (numeral_ne_nil 10 _), hvalue, if_pos rfl]
    have hback : signed32 (max (-2 ^ 63) (min (-((-x).toNat : Int)) (2 ^ 63 - 1))) = x := by
      unfold signed32
      omega
    rw [hback]
  · obtain ⟨c, digits, hnum⟩ := List.exists_cons_of_ne_nil (numeral_ne_nil 10 x.toNat)
    have hc : isDigit 10 c = true := numeral_digits (by decide) (by decide) x.toNat c (by rw [hnum]; simp)
    have hdigit : ∀ c, isDigit 10 c = true → isspace c = false ∧ some c ≠ some 0x2d ∧ some c ≠ some 0x2b := by decide
    obtain ⟨hspace, hminus, hplus⟩ := hdigit c hc
    have hhead : (numeral 10 x.toNat ++ [0x0a]).head? = some c := by rw [hnum]; rfl
    have hdrop : (numeral 10 x.toNat ++ [0x0a]).dropWhile isspace = numeral 10 x.toNat ++ [0x0a] := by
      rw [hnum, List.cons_append, List.dropWhile_cons, hspace]
      rfl
    rw [if_neg hneg, hdrop]
    dsimp only
    rw [hhead, if_neg (not_or.mpr ⟨hminus, hplus⟩), hspan, if_neg (numeral_ne_nil 10 _), hvalue, if_neg hminus]
    have hback : signed32 (max (-2 ^ 63) (min (x.toNat : Int) (2 ^ 63 - 1))) = x := by
      unfold signed32
      omega
    rw [hback]

/-- A line is plain up to its newline, and it fits into the buffer. -/
theorem csvLine_plain {s : ExportSymbol} (hs : s.Exportable) : ∃ line, csvLine s = line ++ [0x0a] ∧
    (∀ c ∈ line, c ≠ 0x0a ∧ c ≠ 0) ∧ line.length < 1023 := by
  have hhex := @numeral_plain 16 (by decide) (by decide) s.address
  have hdec := @numeral_plain 10 (by decide) (by decide) s.size
  have htype := signedNumeral_plain s.type
  refine ⟨s.name ++ 0x2c :: (ascii "0x" ++ numeral 16 s.address ++ 0x2c :: (numeral 10 s.size ++ 0x2c ::
    signedNumeral s.type)), by simp [csvLine], fun c hc => ?_, ?_⟩
  · have hzero : ∀ c ∈ ascii "0x", c ≠ 0x0a ∧ c ≠ 0 := by decide
    have hcomma : (0x2c : UInt8) ≠ 0x0a ∧ (0x2c : UInt8) ≠ 0 := by decide
    simp only [List.mem_append, List.mem_cons] at hc
    rcases hc with hc | rfl | (hc | hc) | rfl | hc | rfl | hc
    · exact ⟨(hs.plain c hc).2.1, (hs.plain c hc).2.2.2⟩
    · exact hcomma
    · exact hzero c hc
    · exact (hhex c hc).2
    · exact hcomma
    · exact (hdec c hc).2
    · exact hcomma
    · exact htype c hc
  · have haddress := @numeral_length 16 _ 16 (by decide) (by decide) hs.address
    have hsize := @numeral_length 10 _ 20 (by decide) (by decide) (Nat.lt_trans hs.size (by decide))
    have hlen := signedNumeral_length hs.type
    have hzero : (ascii "0x").length = 2 := rfl
    have hname := hs.length
    simp only [List.length_append, List.length_cons]
    omega

/-- A symbol comes back without its size. -/
theorem scanSymbol_line {s : ExportSymbol} (hs : s.Exportable) :
    scanSymbol (csvLine s) = some (s.name, s.address, some s.type) := by
  obtain ⟨line, hline, hplain, -⟩ := csvLine_plain hs
  have hstring : cString (csvLine s) = csvLine s := by
    rw [hline]
    refine List.takeWhile_eq_self_iff.mpr fun c hc => decide_eq_true ?_
    rcases List.mem_append.mp hc with hc | hc
    · exact (hplain c hc).2
    · rw [List.mem_singleton.mp hc]
      decide
  have hname : ((csvLine s).takeWhile (· ≠ 0x2c)).take 255 = s.name := by
    have hfield : (csvLine s).takeWhile (· ≠ 0x2c) = s.name := by
      unfold csvLine
      rw [List.takeWhile_append_of_pos fun c hc => decide_eq_true (hs.plain c hc).1, List.takeWhile_cons,
        if_neg (by decide), List.append_nil]
    rw [hfield, List.take_of_length_le hs.length]
  have hrest : (csvLine s).drop s.name.length = 0x2c :: (ascii "0x" ++ numeral 16 s.address ++
      0x2c :: (numeral 10 s.size ++ 0x2c :: (signedNumeral s.type ++ [0x0a]))) := List.drop_left
  have htype : scanType (0x2c :: (numeral 10 s.size ++ 0x2c :: (signedNumeral s.type ++ [0x0a]))) = some s.type := by
    unfold scanType
    rw [scanComma_cons, Option.bind_eq_bind, Option.bind_some, scanUnsigned_decimal hs.size]
    exact congrArg (fun r : Option (Int × List UInt8) => r.bind fun r => some r.1) (scanInt_signed hs.type)
  unfold scanSymbol
  dsimp only
  rw [hstring, hname, if_neg hs.named, hrest, scanComma_cons, Option.bind_eq_bind, Option.bind_some, scanUnsigned_hex hs.address]
  exact congrArg (fun t => some (s.name, s.address, t)) htype

/-! ### A file -/

/-- A symbol without its size. -/
def ExportSymbol.sizeless (s : ExportSymbol) : ExportSymbol := { s with size := 0 }

theorem importLine_line {s : ExportSymbol} (hs : s.Exportable) (symbols : List ExportSymbol) :
    importLine symbols (csvLine s) = s.sizeless :: symbols := by
  unfold importLine
  rw [scanSymbol_line hs]
  rfl

/-- The header is read as the symbol `Name` at `0xADD`. -/
theorem importLine_header (symbols : List ExportSymbol) : importLine symbols csvHeader = headerSymbol :: symbols := by
  have hscan : scanSymbol csvHeader = some (ascii "Name", 0xADD, none) := by decide
  unfold importLine
  rw [hscan]
  rfl

/-- One turn of the loop, at a line that fits into the buffer. -/
theorem importLines_line {fuel : Nat} {line rest : List UInt8} (hlen : line.length < 1023)
    (hline : ∀ c ∈ line, c ≠ 0x0a) (symbols : List ExportSymbol) :
    importLines (fuel + 1) (line ++ [0x0a] ++ rest) symbols =
      importLines fuel rest (importLine symbols (line ++ [0x0a])) := by
  have hfgets := @fgets_line 1023 line rest hlen hline
  have hne : line ++ 0x0a :: rest ≠ [] := List.append_ne_nil_of_right_ne_nil line (List.cons_ne_nil _ _)
  rw [List.append_assoc, List.singleton_append, importLines, if_neg hne, hfgets]

/-- The lines of the symbols are read one by one, each put in front of those before it. -/
theorem importLines_symbols {symbols : List ExportSymbol} (hs : ∀ s ∈ symbols, s.Exportable) {fuel : Nat}
    (hfuel : (symbols.flatMap csvLine).length ≤ fuel) (acc : List ExportSymbol) :
    importLines fuel (symbols.flatMap csvLine) acc = (symbols.map ExportSymbol.sizeless).reverse ++ acc := by
  induction symbols generalizing fuel acc with
  | nil => cases fuel <;> rfl
  | cons s symbols ih =>
      have hhead := hs s List.mem_cons_self
      obtain ⟨line, hline, hplain, hlen⟩ := csvLine_plain hhead
      rw [List.flatMap_cons, List.length_append, hline, List.length_append, List.length_singleton] at hfuel
      obtain ⟨fuel, rfl⟩ : ∃ m, fuel = m + 1 := ⟨fuel - 1, by omega⟩
      rw [List.flatMap_cons, hline, importLines_line hlen (fun c hc => (hplain c hc).1), ← hline, importLine_line hhead,
        ih (fun t ht => hs t (List.mem_cons_of_mem _ ht)) (by omega)]
      simp

/-- What an empty binary has after an export and an import: the symbols in reverse order and without their sizes,
behind them the one of the header. -/
theorem import_export {symbols : List ExportSymbol} (hs : ∀ s ∈ symbols, s.Exportable) :
    e9_symbols_import [] (e9_symbols_export symbols (some (ascii "ghidra"))) =
      (symbols.map ExportSymbol.sizeless).reverse ++ [headerSymbol] := by
  have hexport : e9_symbols_export symbols (some (ascii "ghidra")) = csvHeader ++ symbols.flatMap csvLine :=
    if_pos (by simp)
  have hheader : csvHeader = ascii "Name,Address,Size,Type" ++ [0x0a] := by decide
  have hlen : csvHeader.length = 23 := by decide
  have hlines := importLines_symbols hs (Nat.le_add_left _ 22) [headerSymbol]
  have hfuel : 23 + (symbols.flatMap csvLine).length = 22 + (symbols.flatMap csvLine).length + 1 := by omega
  unfold e9_symbols_import
  rw [hexport, List.length_append, hlen, hfuel, hheader, importLines_line (by decide) (by decide), ← hheader,
    importLine_header, hlines]

/-- There is always one symbol too many. -/
theorem not_comesBack {symbols : List ExportSymbol} (hs : ∀ s ∈ symbols, s.Exportable) : ¬ComesBack symbols := by
  intro h
  have hlen := h.length_eq
  rw [import_export hs] at hlen
  simp only [List.length_append, List.length_reverse, List.length_map, List.length_singleton] at hlen
  omega

/-- No list of symbols comes back from the file that it is written to: the header becomes a symbol, and every size
but zero is lost. -/
theorem symbols_never_come_back {symbols : List ExportSymbol} (hs : ∀ s ∈ symbols, s.Exportable) :
    ¬ComesBack symbols ∧
      (e9_symbols_import [] (e9_symbols_export symbols (some (ascii "ghidra")))).Perm
        (headerSymbol :: symbols.map ExportSymbol.sizeless) := by
  refine ⟨not_comesBack hs, ?_⟩
  rw [import_export hs]
  exact (List.perm_append_singleton _ _).trans (List.Perm.cons _ (List.reverse_perm _))

/-- `main` at 0x401000, a function of 16 bytes. -/
def mainSymbol : ExportSymbol := ⟨ascii "main", 0x401000, 16, E9_SYM_FUNCTION⟩

theorem mainSymbol_exportable : ∀ s ∈ [mainSymbol], s.Exportable := by
  intro s hs
  obtain rfl := List.mem_singleton.mp hs
  exact ⟨by decide, by decide, by decide, by decide, by decide, by decide⟩

theorem mainSymbol_lost : ¬ComesBack [mainSymbol] ∧
    (e9_symbols_import [] (e9_symbols_export [mainSymbol] (some (ascii "ghidra")))).Perm
      [headerSymbol, ⟨ascii "main", 0x401000, 0, E9_SYM_FUNCTION⟩] :=
  symbols_never_come_back mainSymbol_exportable

/-- Not every list comes back. -/
theorem main_gains_a_name : ¬∀ symbols : List ExportSymbol, (∀ s ∈ symbols, s.Exportable) → ComesBack symbols :=
  fun h => not_comesBack mainSymbol_exportable (h _ mainSymbol_exportable)

end E9Patch
