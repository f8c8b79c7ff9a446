import E9Patch.DisasmModel
import E9Patch.JsonModel
import Mathlib.Data.List.Sort

/-!
Lists of addresses in CSV files (`e9csv.cpp`), and the search in such a list (`e9tool.cpp`). The stream is the
list of the bytes still to be read; line numbers, which only the texts of the errors have, are left out. What
`std::unique` leaves behind the elements that it keeps is not specified, and the source does not cut it off.
-/

namespace E9Tool
open E9Patch (isspace strtoull)
open Bytes Numerals Fallible

/-! ### The parser -/

/-- An entry of a record. -/
inductive Entry where
  | undefined
  | integer (i : Int)
  | string (s : List UInt8)
  deriving DecidableEq, Repr

inductive CSVError where
  | nonASCII (c : UInt8)
  | unexpectedEnd
  | noNewline
  | unexpectedCharacter (c : UInt8)
  | notAnAddress
  deriving DecidableEq, Repr

/-- Convert an entry into an integer; a string ends with its first zero byte. -/
def entryToInt (entry : List UInt8) : Option Int :=
  let s := (entry.takeWhile (· ≠ 0)).dropWhile isspace
  let neg := s.head? = some 0x2d
  let s := if neg ∨ s.head? = some 0x2b then s.tail else s
  let base := if s.take 2 = ascii "0x" then 16 else 10
  let r := strtoull s base
  if r.2.1.length = s.length ∨ r.2.1.dropWhile isspace ≠ [] then none
  else
    let x := signed64 r.1
    some (if neg then signed64 (-x) else x)

/-- Checked getc; there is no character at the end. -/
def getChar : List UInt8 → Except CSVError (Option UInt8 × List UInt8)
  | [] => .ok (none, [])
  | c :: stream => if c < 0x80 then .ok (some c, stream) else .error (.nonASCII c)

/-- The rest of an entry behind a quotation mark. Two of them are one of the entry. -/
def parseQuoted : List UInt8 → List UInt8 → Except CSVError (List UInt8 × List UInt8)
  | _, [] => .error .unexpectedEnd
  | entry, c :: stream =>
    if ¬c < 0x80 then .error (.nonASCII c)
    else if c = 0x22 then
      match stream with
      | [] => .ok (entry, [])
      | d :: rest =>
        if ¬d < 0x80 then .error (.nonASCII d)
        else if d = 0x22 then parseQuoted (entry ++ [d]) rest
        else .ok (entry, d :: rest)
    else parseQuoted (entry ++ [c]) stream

/-- The rest of an entry without quotation marks. -/
def parseBare : List UInt8 → List UInt8 → Except CSVError (List UInt8 × List UInt8)
  | entry, [] => .ok (entry, [])
  | entry, c :: stream =>
    if ¬c < 0x80 then .error (.nonASCII c)
    else if c = 0x2c ∨ c = 0x0a ∨ c = 0x0d then .ok (entry, c :: stream)
    else parseBare (entry ++ [c]) stream

/-- Parse a CSV entry; there is none at the end of the file. -/
def parseEntry : List UInt8 → Except CSVError (Option (Entry × List UInt8))
  | [] => .ok none
  | c :: stream =>
    if ¬c < 0x80 then .error (.nonASCII c)
    else if c = 0x0d ∨ c = 0x0a ∨ c = 0x2c then .ok (some (.undefined, c :: stream))
    else if c = 0x22 then do
      let r ← parseQuoted [] stream
      .ok (some (.string (r.1.takeWhile (· ≠ 0)), r.2))
    else do
      let r ← parseBare [c] stream
      .ok (some (match entryToInt r.1 with
        | some x => .integer x
        | none => .string (r.1.takeWhile (· ≠ 0)), r.2))

/-- What `parseRecord` leaves: whether there is a record, its entries, and the rest of the file. -/
structure Parsed where
  more : Bool
  record : List Entry
  stream : List UInt8
  deriving DecidableEq, Repr

/-- The entries behind the first one. Every round takes a comma at least. -/
def parseFields : Nat → List Entry → List UInt8 → Except CSVError Parsed
  | 0, record, stream => .ok ⟨true, record, stream⟩
  | fuel + 1, record, stream => do
    let r ← getChar stream
    match r.1 with
    | none => .ok ⟨true, record, r.2⟩
    | some c =>
      if c = 0x0d then do
        let r ← getChar r.2
        if r.1 = some 0x0a then .ok ⟨true, record, r.2⟩ else .error .noNewline
      else if c = 0x0a then .ok ⟨true, record, r.2⟩
      else if c = 0x2c then do
        match ← parseEntry r.2 with
        | none => .ok ⟨false, record, r.2⟩
        | some e => parseFields fuel (record ++ [e.1]) e.2
      else .error (.unexpectedCharacter c)

/-- Parse a CSV record. -/
def parseRecord (stream : List UInt8) : Except CSVError Parsed := do
  match ← parseEntry stream with
  | none => .ok ⟨false, [], stream⟩
  | some e => parseFields (e.2.length + 1) [e.1] e.2

/-- The loop over the records: the addresses, and the record that it stops in. Every record has a byte at
least; the first may be a header. -/
def readAddrs : Nat → Bool → List Int → List UInt8 → Except CSVError (List Int × List Entry)
  | 0, _, As, _ => .ok (As, [])
  | fuel + 1, header, As, stream => do
    let r ← parseRecord stream
    if !r.more then .ok (As, r.record)
    else
      match r.record.head? with
      | some (.integer addr) => readAddrs fuel false (As ++ [addr]) r.stream
      | _ => if header then readAddrs fuel false As r.stream else .error .notAnAddress

/-- The first of every group of equal elements. -/
def firsts : List Int → List Int
  | [] => []
  | [a] => [a]
  | a :: b :: as => if a = b then firsts (b :: as) else a :: firsts (b :: as)

/-- An implementation of `std::unique`: it moves the first of every group to the front, and leaves as many
elements as there were, the others being some of the list. -/
structure Unique where
  rest : List Int → List Int
  length_rest : ∀ as, (rest as).length = as.length - (firsts as).length
  mem_rest : ∀ as, ∀ a ∈ rest as, a ∈ as

def Unique.apply (unique : Unique) (as : List Int) : List Int := firsts as ++ unique.rest as

/-- Specialized parser for lists of addresses. -/
def parseAddrs (unique : Unique) (file : List UInt8) : Except CSVError (List Int) :=
  (readAddrs (file.length + 1) true [] file).map fun r => unique.apply (r.1.insertionSort (· ≤ ·))

/-! ### The rest of the file -/

theorem parseQuoted_le {entry s : List UInt8} {r : List UInt8 × List UInt8} (h : parseQuoted entry s = .ok r) :
    r.2.length < s.length := by
  induction entry, s using parseQuoted.induct with
  | case1 entry => cases h
  | case2 entry c stream hc =>
      rw [parseQuoted.eq_def] at h
      simp only [if_pos hc] at h
      cases h
  | case3 entry hc =>
      rw [parseQuoted, if_neg hc, if_pos rfl] at h
      injection h with h
      rw [← h]
      exact Nat.one_pos
  | case4 entry d rest hd hc =>
      rw [parseQuoted, if_neg hc, if_pos rfl, if_pos hd] at h
      cases h
  | case5 entry rest hd hc ih =>
      rw [parseQuoted, if_neg hc, if_pos rfl, if_neg hd, if_pos rfl] at h
      have := ih h
      simp only [List.length_cons]
      omega
  | case6 entry d rest hd hne hc =>
      rw [parseQuoted, if_neg hc, if_pos rfl, if_neg hd, if_neg hne] at h
      injection h with h
      rw [← h]
      exact Nat.lt_succ_self _
  | case7 entry c stream hc hne ih =>
      rw [parseQuoted.eq_def] at h
      simp only [if_neg hc, if_neg hne] at h
      exact (ih h).trans (Nat.lt_succ_self _)

theorem parseBare_le {entry s : List UInt8} {r : List UInt8 × List UInt8} (h : parseBare entry s = .ok r) :
    r.2.length ≤ s.length := by
  induction s generalizing entry with
  | nil =>
      injection h with h
      rw [← h]
  | cons c s ih =>
      rw [parseBare] at h
      split_ifs at h with h1 h2
      · injection h with h
        rw [← h]
      · exact (ih h).trans (Nat.le_succ _)

/-- An entry without characters is followed by a separator. -/
theorem parseEntry_le {s : List UInt8} {e : Entry × List UInt8} (h : parseEntry s = .ok (some e)) :
    e.2.length ≤ s.length ∧ (e.2.length < s.length ∨ e.2 ≠ []) := by
  cases s with
  | nil => cases h
  | cons c s =>
      rw [parseEntry] at h
      split_ifs at h with h1 h2 h3
      · injection h with h
        obtain rfl := Option.some.inj h
        exact ⟨le_rfl, Or.inr (List.cons_ne_nil _ _)⟩
      · rw [bind_ok] at h
        obtain ⟨r, hr, h⟩ := h
        injection h with h
        obtain rfl := Option.some.inj h
        have : r.2.length < s.length := parseQuoted_le hr
        exact ⟨(this.trans (Nat.lt_succ_self _)).le, Or.inl (this.trans (Nat.lt_succ_self _))⟩
      · rw [bind_ok] at h
        obtain ⟨r, hr, h⟩ := h
        injection h with h
        obtain rfl := Option.some.inj h
        have : r.2.length ≤ s.length := parseBare_le hr
        exact ⟨this.trans (Nat.le_succ _), Or.inl (this.trans_lt (Nat.lt_succ_self _))⟩

theorem parseFields_le {fuel : Nat} {record : List Entry} {s : List UInt8} {r : Parsed} (hfuel : s.length < fuel)
    (h : parseFields fuel record s = .ok r) : r.stream.length ≤ s.length ∧ (s ≠ [] → r.stream.length < s.length) := by
  induction fuel generalizing record s with
  | zero => exact absurd hfuel (Nat.not_lt_zero _)
  | succ fuel ih =>
      rw [parseFields, bind_ok] at h
      obtain ⟨c, hc, h⟩ := h
      cases s with
      | nil =>
          injection hc with hc
          rw [← hc] at h
          injection h with h
          rw [← h]
          exact ⟨le_rfl, fun h => absurd rfl h⟩
      | cons b s =>
          rw [getChar] at hc
          split_ifs at hc with hb
          injection hc with hc
          rw [← hc] at h
          dsimp only at h
          suffices hlt : r.stream.length < (b :: s).length from ⟨hlt.le, fun _ => hlt⟩
          rw [List.length_cons] at hfuel ⊢
          split_ifs at h with h1 h2 h3
          · rw [bind_ok] at h
            obtain ⟨d, hd, h⟩ := h
            split_ifs at h with hnl
            injection h with h
            rw [← h]
            cases s with
            | nil =>
                injection hd with hd
                rw [← hd]
                exact Nat.one_pos
            | cons d' s =>
                rw [getChar] at hd
                split_ifs at hd
                injection hd with hd
                rw [← hd, List.length_cons]
                show s.length < _
                omega
          · injection h with h
            rw [← h]
            exact Nat.lt_succ_self _
          · rw [bind_ok] at h
            obtain ⟨e, he, h⟩ := h
            cases e with
            | none =>
                injection h with h
                rw [← h]
                exact Nat.lt_succ_self _
            | some e =>
                have hle := (parseEntry_le he).1
                exact Nat.lt_succ_of_le ((ih (by omega) h).1.trans hle)

theorem parseRecord_shorter {s : List UInt8} {r : Parsed} (h : parseRecord s = .ok r) (hmore : r.more = true) :
    r.stream.length < s.length := by
  rw [parseRecord, bind_ok] at h
  obtain ⟨e, he, h⟩ := h
  cases e with
  | none =>
      injection h with h
      rw [← h] at hmore
      cases hmore
  | some e =>
      obtain ⟨h1, h2⟩ := parseEntry_le he
      obtain ⟨h3, h4⟩ := parseFields_le (Nat.lt_succ_self _) h
      rcases h2 with h2 | h2
      · omega
      · exact (h4 h2).trans_le h1

/-- The loop over the records takes no more rounds than there are bytes. -/
theorem readAddrs_fuel {fuel : Nat} {header : Bool} {As : List Int} {s : List UInt8} (h : s.length < fuel) :
    readAddrs fuel header As s = readAddrs (fuel + 1) header As s := by
  induction fuel generalizing header As s with
  | zero => exact absurd h (Nat.not_lt_zero _)
  | succ fuel ih =>
      rw [readAddrs, readAddrs]
      cases hr : parseRecord s with
      | error e => rfl
      | ok r =>
          show (if !r.more then _ else _) = if !r.more then _ else _
          cases hmore : r.more with
          | false => rfl
          | true =>
              have hshort := parseRecord_shorter hr hmore
              have hnext : ∀ header As, readAddrs fuel header As r.stream = readAddrs (fuel + 1) header As r.stream :=
                fun header As => ih (by omega)
              simp only [Bool.not_true, Bool.false_eq_true, if_false, hnext]

/-! ### The search -/

/-- In a list of any order the search leads to a listed address, unless the last one is before `addr`. -/
theorem nextInstr_lands (disasm : List Int) (addr : Int) :
    (∀ last, disasm.getLast? = some last → last < addr) ∧ nextInstr disasm addr = INT32_MAX ∨
      (addr + nextInstr disasm addr) ∈ disasm := by
  rw [nextInstr]
  cases hlast : disasm.getLast? with
  | none => exact Or.inl ⟨fun _ h => (nomatch h), rfl⟩
  | some last =>
      dsimp only
      by_cases hbehind : addr > last
      · rw [if_pos hbehind]
        exact Or.inl ⟨fun x hx => Option.some.inj hx ▸ hbehind, rfl⟩
      · rw [if_neg hbehind]
        right
        cases hs : BinarySearch.searchList (fun i => BinarySearch.side addr i i) disasm with
        | found i =>
            obtain ⟨x, hx, heq⟩ := BinarySearch.searchList_found hs
            obtain rfl := (le_antisymm (BinarySearch.side_eq_eq.mp heq).1 (BinarySearch.side_eq_eq.mp heq).2)
            simpa using List.mem_of_getElem? hx
        | missing k =>
            obtain ⟨-, hgt, hend⟩ := BinarySearch.searchList_missing_gt hs
            have hk := hend last hlast fun hlt => hbehind (BinarySearch.side_eq_lt.mp hlt)
            have hx : disasm[k]? = some disasm[k] := List.getElem?_eq_getElem hk
            have hlt := (BinarySearch.side_eq_gt le_rfl).mp (hgt _ hx)
            have hland : addr + (disasm[k] - addr).toNat = disasm[k] := by omega
            dsimp only
            rw [hx, Option.getD_some, hland]
            exact List.getElem_mem hk

/-- `d` is the distance from `a` to the first of the addresses from there on, or the largest skip if there
is none. -/
def Nearest (As : List Int) (a : Int) (d : Nat) : Prop :=
  ((∀ b ∈ As, b < a) ∧ d = INT32_MAX) ∨ ∃ m ∈ As, a ≤ m ∧ (∀ b ∈ As, a ≤ b → m ≤ b) ∧ (d : Int) = m - a

/-- In a list in ascending order the search is right. -/
theorem nextInstr_nearest {As : List Int} (hAs : As.Pairwise (· < ·)) (addr : Int) :
    Nearest As addr (nextInstr As addr) := by
  rw [nextInstr]
  cases hlast : As.getLast? with
  | none =>
      rw [List.getLast?_eq_none_iff.mp hlast]
      exact Or.inl ⟨fun b hb => (List.not_mem_nil hb).elim, rfl⟩
  | some last =>
      dsimp only
      obtain ⟨As', rfl⟩ := List.getLast?_eq_some_iff.mp hlast
      by_cases hbehind : addr > last
      · rw [if_pos hbehind]
        refine Or.inl ⟨fun b hb => ?_, rfl⟩
        rcases List.mem_append.mp hb with hb | hb
        · exact ((List.pairwise_append.mp hAs).2.2 b hb last List.mem_cons_self).trans hbehind
        · rw [List.mem_singleton.mp hb]
          exact hbehind
      · rw [if_neg hbehind]
        right
        cases hs : BinarySearch.searchList (fun i => BinarySearch.side addr i i) (As' ++ [last]) with
        | found i =>
            obtain ⟨x, hx, heq⟩ := BinarySearch.searchList_found hs
            obtain rfl := (le_antisymm (BinarySearch.side_eq_eq.mp heq).1 (BinarySearch.side_eq_eq.mp heq).2)
            exact ⟨x, List.mem_of_getElem? hx, le_rfl, fun b _ hb => hb, by simp⟩
        | missing k =>
            obtain ⟨-, hgt, hend⟩ := BinarySearch.searchList_missing_gt hs
            obtain ⟨-, hbelow, -⟩ := BinarySearch.searchList_missing (BinarySearch.divides_side hAs (fun _ _ => le_rfl) addr) hs
            have hk := hend last hlast fun hlt => hbehind (BinarySearch.side_eq_lt.mp hlt)
            have hx : (As' ++ [last])[k]? = some (As' ++ [last])[k] := List.getElem?_eq_getElem hk
            have hlt := (BinarySearch.side_eq_gt le_rfl).mp (hgt _ hx)
            dsimp only
            rw [hx, Option.getD_some]
            refine ⟨(As' ++ [last])[k], List.getElem_mem hk, hlt.le, fun b hb hle => ?_, by omega⟩
            rw [← List.take_append_drop k (As' ++ [last]), List.mem_append] at hb
            rcases hb with hb | hb
            · have := BinarySearch.side_eq_lt.mp (hbelow b hb)
              omega
            · obtain ⟨j, hj, rfl⟩ := List.getElem_of_mem hb
              rw [List.length_drop] at hj
              rw [List.getElem_drop]
              rcases Nat.eq_zero_or_pos j with rfl | hpos
              · exact le_rfl
              · exact (List.pairwise_iff_getElem.mp hAs k (k + j) hk (by omega) (by omega)).le

/-! ### Sorting and removal of duplicates -/

theorem mem_firsts {as : List Int} {x : Int} : x ∈ firsts as ↔ x ∈ as := by
  induction as using firsts.induct with
  | case1 => rfl
  | case2 a => rfl
  | case3 b as ih => simp only [firsts, if_true, ih, List.mem_cons, or_self_left]
  | case4 a b as h ih => rw [firsts, if_neg h, List.mem_cons, ih, List.mem_cons (a := x) (b := a)]

theorem firsts_eq_self {as : List Int} (has : as.Nodup) : firsts as = as := by
  induction as using firsts.induct with
  | case1 => rfl
  | case2 a => rfl
  | case3 b as ih => exact absurd List.mem_cons_self (List.nodup_cons.mp has).1
  | case4 a b as h ih => rw [firsts, if_neg h, ih (List.nodup_cons.mp has).2]

/-- All elements stay in their places only if there are no duplicates; what is left behind is a duplicate. -/
theorem Unique.ascending_iff (unique : Unique) {as : List Int} (has : as.Pairwise (· ≤ ·)) :
    (unique.apply as).Pairwise (· < ·) ↔ as.Nodup := by
  constructor
  · intro h
    obtain ⟨h1, -, h3⟩ := List.pairwise_append.mp h
    have hrest : unique.rest as = [] := by
      refine List.eq_nil_iff_forall_not_mem.mpr fun a ha => ?_
      exact (h3 a (mem_firsts.mpr (unique.mem_rest as a ha)) a ha).false
    have hlen := unique.length_rest as
    rw [hrest, List.length_nil] at hlen
    have hsub : (firsts as).Subperm as :=
      List.subperm_of_subset (h1.imp (fun h => h.ne)) fun x hx => mem_firsts.mp hx
    have hperm := hsub.perm_of_length_le (by omega)
    exact hperm.nodup_iff.mp (h1.imp (fun h => h.ne))
  · intro h
    have hlen := unique.length_rest as
    rw [firsts_eq_self h, Nat.sub_self] at hlen
    rw [Unique.apply, firsts_eq_self h, List.length_eq_zero_iff.mp hlen, List.append_nil]
    exact (has.and h).imp fun h => lt_of_le_of_ne h.1 h.2

theorem Unique.mem_apply (unique : Unique) {as : List Int} {a : Int} : a ∈ unique.apply as ↔ a ∈ as := by
  rw [Unique.apply, List.mem_append, mem_firsts]
  exact or_iff_left_of_imp (unique.mem_rest as a)

/-! ### The list -/

/-- The addresses that a file lists: those of its records, and of the one that it may end in. -/
def listed (r : List Int × List Entry) : List Int :=
  r.1 ++ match r.2.head? with
    | some (.integer a) => [a]
    | _ => []

/-- The distinct addresses of the file in ascending order, with the right distances. -/
structure Exact (r : List Int × List Entry) (As : List Int) : Prop where
  ascending : As.Pairwise (· < ·)
  mem : ∀ a, a ∈ As ↔ a ∈ listed r
  nearest : ∀ a, Nearest As a (nextInstr As a)

/-- **The list of addresses.** It has the addresses of the file in ascending order, with the distances found by
the search, exactly if no address comes twice and none is only in a record that the file breaks off behind a
comma. -/
theorem address_list_iff {unique : Unique} {file : List UInt8} {As : List Int} (h : parseAddrs unique file = .ok As) :
    ∃ r, readAddrs (file.length + 1) true [] file = .ok r ∧
      (Exact r As ↔ r.1.Nodup ∧ ∀ a ∈ listed r, a ∈ r.1) := by
  rw [parseAddrs, map_ok] at h
  obtain ⟨r, hr, rfl⟩ := h
  refine ⟨r, hr, ?_⟩
  have hperm := List.perm_insertionSort (· ≤ ·) r.1
  have hsorted := List.pairwise_insertionSort (· ≤ ·) r.1
  have hmem : ∀ a, a ∈ unique.apply (r.1.insertionSort (· ≤ ·)) ↔ a ∈ r.1 := fun a => by
    rw [unique.mem_apply, hperm.mem_iff]
  have hascending := (unique.ascending_iff hsorted).trans hperm.nodup_iff
  constructor
  · intro hexact
    exact ⟨hascending.mp hexact.ascending, fun a ha => (hmem a).mp ((hexact.mem a).mpr ha)⟩
  · rintro ⟨h1, h2⟩
    have h3 := hascending.mpr h1
    exact ⟨h3, fun a => ⟨fun ha => List.mem_append_left _ ((hmem a).mp ha), fun ha => (hmem a).mpr (h2 a ha)⟩,
      nextInstr_nearest h3⟩

/-- Elements that are not written stay what they were. -/
def inPlace : Unique where
  rest as := as.drop (firsts as).length
  length_rest _ := List.length_drop
  mem_rest _ _ h := List.mem_of_mem_drop h

theorem address_list_two : ∃ r, readAddrs 7 true [] (ascii "32\n16\n") = .ok r ∧ Exact r [16, 32] := by
  have hparse : parseAddrs inPlace (ascii "32\n16\n") = .ok [16, 32] := by decide +kernel
  obtain ⟨r, hr, hiff⟩ := address_list_iff hparse
  have hr' : readAddrs 7 true [] (ascii "32\n16\n") = .ok ([32, 16], []) := by decide +kernel
  obtain rfl : r = ([32, 16], []) := Except.ok.inj (hr.symm.trans hr')
  exact ⟨_, hr', hiff.mpr ⟨by decide, by decide⟩⟩

/-- Of a file with an address twice, one of them stays behind the last. -/
theorem duplicate_kept : parseAddrs inPlace (ascii "16\n16\n32\n") = .ok [16, 32, 32] ∧
    ¬([16, 32, 32] : List Int).Pairwise (· < ·) := by decide +kernel

end E9Tool
