import E9Patch.AllocModel
import E9Patch.CFGBlocks
import Mathlib.Data.List.Chain

/-!
The source lines of `e9dwarf.cpp`. The records of all compilation units are brought into the order of their
addresses, runs of one line are merged into intervals, and an address is looked up in the map of the intervals. An
interval ends where the next one starts; only the last one ends with the code. The lookup of an address behind the
start of the last interval finds no entry that it could step back from.
-/

namespace E9Tool
open E9Patch (INTPTR_MAX)
open Bytes (signed64)

/-! ### The model -/

/-- The line of an interval of addresses. -/
structure Line where
  lb : Int
  ub : Int
  dir : Option (List UInt8)
  file : List UInt8
  line : Nat
  deriving DecidableEq, Repr

abbrev Lines := List (Int × Line)

/-- Check if lines are the same. -/
def sameLine (line_1 line_2 : Line) : Bool :=
  line_1.line = line_2.line ∧ line_1.dir = line_2.dir ∧ line_1.file = line_2.file

/-- A line record. -/
structure Dwarf_Line where
  addr : Nat
  file : List UInt8
  lineno : Int

/-- The records of a compilation unit, and its directory. -/
structure Dwarf_Lines where
  dir : Option (List UInt8)
  lines : List Dwarf_Line

/-- The line of a record, with an end that is not known. Absolute file names are in no directory. -/
def Dwarf_Line.toLine (dir : Option (List UInt8)) (record : Dwarf_Line) : Option Line :=
  if record.lineno ≤ 0 then none
  else
    let tmp := if record.file.head? = some 0x2F then none else dir
    some ⟨signed64 record.addr, INTPTR_MAX, tmp, record.file, record.lineno.toNat⟩

/-- The lines of all records in the order of their addresses. The first record of an address counts. -/
def recordedLines (units : List Dwarf_Lines) : List Line :=
  let records := units.flatMap fun unit => unit.lines.map fun record => (unit.dir, record)
  (OrderedMap.collect Line.lb (fun r => r.2.toLine r.1) records).map Prod.snd

/-- The end of the instructions from `ub` on, up to the first gap. -/
def codeEnd : Int → List Instr → Int
  | ub, [] => ub
  | ub, I :: rest => if I.address = ub then codeEnd (I.address + I.size) rest else ub

/-- The end of the code that starts at an address. -/
def codeEndFrom (Is : List Instr) (lb : Int) : Int :=
  match findInstr Is lb with
  | none => lb
  | some i => codeEnd lb (Is.drop i)

/-- The end of an interval, by the start of the next one. -/
def lineEnd (Is : List Instr) (lb : Int) (next : Option Line) : Int :=
  let ub := (next.map Line.lb).getD INTPTR_MAX
  if ub = INTPTR_MAX then codeEndFrom Is lb else ub

/-- The intervals from `line`, the first one of its run, on. -/
def lineRuns (Is : List Instr) : Line → List Line → List Line
  | line, [] => [{ line with ub := lineEnd Is line.lb none }]
  | line, L :: rest =>
    if sameLine L line then lineRuns Is line rest
    else { line with ub := lineEnd Is line.lb (some L) } :: lineRuns Is L rest

def mergeLines (Is : List Instr) : List Line → List Line
  | [] => []
  | line :: rest => lineRuns Is line rest

/-- Build source line information. -/
def buildLines (units : List Dwarf_Lines) (Is : List Instr) : Lines :=
  OrderedMap.collect Line.lb some (mergeLines Is (recordedLines units))

/-- Find the line associated with the given address. -/
def findLine (Ls : Lines) (addr : Int) : Option Line :=
  let m := OrderedMap.lowerBound Ls addr
  match m.2 with
  | [] => none
  | i :: _ =>
    if i.2.lb = addr then some i.2
    else
      match m.1.getLast? with
      | none => none
      | some i => if i.2.lb ≤ addr ∧ addr < i.2.ub then some i.2 else none

/-! ### Lookup -/

/-- Intervals in order that do not overlap, each under its base address. -/
structure LineMap (Ls : Lines) : Prop where
  keys : ∀ e ∈ Ls, e.1 = e.2.lb
  le : ∀ e ∈ Ls, e.2.lb ≤ e.2.ub
  intervals : Ls.Pairwise fun a b => a.2.lb < b.2.lb ∧ a.2.ub ≤ b.2.lb

/-- The lookup gives the line whose interval has the address. -/
def FindsLine (Ls : Lines) (addr : Int) : Prop :=
  ∀ L, findLine Ls addr = some L ↔ (L.lb, L) ∈ Ls ∧ L.lb ≤ addr ∧ addr < L.ub

variable {units : List Dwarf_Lines} {Is : List Instr} {Ls : Lines} {addr : Int}

theorem LineMap.sorted (h : LineMap Ls) : OrderedMap.Sorted Ls := by
  refine h.intervals.imp_of_mem fun {a b} ha hb hab => ?_
  rw [h.keys a ha, h.keys b hb]
  exact hab.1

/-- The lookup at an address that is not above every interval. -/
theorem findLine_cons {xs ys : Lines} {y : Int × Line} (hsplit : OrderedMap.lowerBound Ls addr = (xs, y :: ys)) :
    findLine Ls addr = if y.2.lb = addr then some y.2
      else xs.getLast?.bind fun i => if i.2.lb ≤ addr ∧ addr < i.2.ub then some i.2 else none := by
  rw [findLine, hsplit]
  dsimp only
  split_ifs
  · rfl
  · cases xs.getLast? with
    | none => rfl
    | some i => rfl

/-- Among intervals below an address only the last one can have it. -/
theorem getLast?_contains {xs : Lines} (hxs : xs.Pairwise fun a b => a.2.lb < b.2.lb ∧ a.2.ub ≤ b.2.lb)
    (hlow : ∀ e ∈ xs, e.2.lb < addr) {e : Int × Line} (he : e ∈ xs) (hub : addr < e.2.ub) : xs.getLast? = some e := by
  rcases List.eq_nil_or_concat xs with rfl | ⟨xs, z, rfl⟩
  · cases he
  · rw [List.concat_eq_append] at *
    obtain ⟨-, -, hz⟩ := List.pairwise_append.mp hxs
    have hzlow := hlow z (List.mem_append_right _ List.mem_cons_self)
    rw [List.getLast?_concat]
    rcases List.mem_append.mp he with he | he
    · have hle := (hz e he z List.mem_cons_self).2
      omega
    · rw [List.mem_singleton.mp he]

/-- The lookup is right unless the address is inside the last interval, or the base of an empty one. -/
theorem LineMap.findsLine_iff (h : LineMap Ls) : FindsLine Ls addr ↔
    (∀ e ∈ Ls.getLast?, ¬(e.2.lb < addr ∧ addr < e.2.ub)) ∧ ∀ e ∈ Ls, e.2.lb = addr → e.2.ub ≠ addr := by
  have hfrom := fun e he => OrderedMap.lowerBound_from h.sorted (k := addr) (e := e) he
  have hbefore := fun e he => OrderedMap.lowerBound_before (m := Ls) (k := addr) (e := e) he
  have happ := OrderedMap.lowerBound_append Ls addr
  obtain ⟨xs, ys, hsplit⟩ : ∃ xs ys, OrderedMap.lowerBound Ls addr = (xs, ys) := ⟨_, _, rfl⟩
  rw [hsplit] at hfrom hbefore happ
  dsimp only at hfrom hbefore happ
  obtain ⟨hxs, hys, hxy⟩ := List.pairwise_append.mp (happ ▸ h.intervals)
  have hlow : ∀ e ∈ xs, e.2.lb < addr := fun e he =>
    h.keys e (happ ▸ List.mem_append_left _ he) ▸ hbefore e he
  have hhigh : ∀ e ∈ ys, addr ≤ e.2.lb := fun e he =>
    h.keys e (happ ▸ List.mem_append_right _ he) ▸ hfrom e he
  have hmem : ∀ e ∈ Ls, e ∈ xs ∨ e ∈ ys := fun e he => List.mem_append.mp (happ.symm ▸ he)
  cases ys with
  | nil =>
      rw [List.append_nil] at happ
      subst happ
      have hnone : findLine xs addr = none := by
        rw [findLine, hsplit]
      constructor
      · intro hfinds
        refine ⟨fun e he hin => ?_, fun e he hlb => absurd hlb (hlow e he).ne⟩
        have hexs := List.mem_of_getLast? he
        have hfound := (hfinds e.2).mpr ⟨h.keys e hexs ▸ hexs, hin.1.le, hin.2⟩
        rw [hnone] at hfound
        cases hfound
      · rintro ⟨hlast, -⟩ L
        rw [hnone]
        refine ⟨(fun hL => nomatch hL), ?_⟩
        rintro ⟨hL, -, hub⟩
        exact absurd ⟨hlow _ hL, hub⟩ (hlast _ (getLast?_contains hxs hlow hL hub))
  | cons y ys =>
      obtain ⟨hy, -⟩ := List.pairwise_cons.mp hys
      have hyLs : (y.2.lb, y.2) ∈ Ls := by
        have hy' : y ∈ Ls := happ ▸ List.mem_append_right _ List.mem_cons_self
        exact h.keys y hy' ▸ hy'
      have hlast : ∀ e ∈ Ls.getLast?, ¬(e.2.lb < addr ∧ addr < e.2.ub) := by
        intro e he hin
        rw [← happ, List.getLast?_append_of_ne_nil _ (List.cons_ne_nil y ys)] at he
        have hle := hhigh e (List.mem_of_getLast? he)
        omega
      have hfind := findLine_cons hsplit
      by_cases hlb : y.2.lb = addr
      · rw [if_pos hlb] at hfind
        constructor
        · intro hfinds
          refine ⟨hlast, fun e he heq => ?_⟩
          have hub := ((hfinds y.2).mp hfind).2.2
          rcases hmem e he with hx | hx
          · exact absurd heq (hlow e hx).ne
          · rcases List.mem_cons.mp hx with rfl | hx
            · exact hub.ne'
            · have hlt := (hy e hx).1
              omega
        · rintro ⟨-, hne⟩ L
          rw [hfind, Option.some.injEq]
          constructor
          · rintro rfl
            have hle := h.le _ hyLs
            have hub := hne _ hyLs hlb
            dsimp only at hle hub
            exact ⟨hyLs, hlb.le, by omega⟩
          · rintro ⟨hL, h1, h2⟩
            rcases hmem _ hL with hx | hx
            · have hle := (hxy _ hx y List.mem_cons_self).2
              dsimp only at hle
              omega
            · rcases List.mem_cons.mp hx with rfl | hx
              · rfl
              · have hlt := (hy _ hx).1
                dsimp only at hlt
                omega
      · rw [if_neg hlb] at hfind
        have habove : ∀ e ∈ y :: ys, addr < e.2.lb := by
          have hyabove : addr < y.2.lb := lt_of_le_of_ne (hhigh y List.mem_cons_self) (Ne.symm hlb)
          intro e he
          rcases List.mem_cons.mp he with rfl | he
          · exact hyabove
          · exact hyabove.trans (hy e he).1
        refine iff_of_true (fun L => ?_) ⟨hlast, fun e he heq => ?_⟩
        · rw [hfind, Option.bind_eq_some_iff]
          constructor
          · rintro ⟨e, he, hL⟩
            split_ifs at hL with hin
            obtain rfl := Option.some.inj hL
            have heLs : e ∈ Ls := happ ▸ List.mem_append_left _ (List.mem_of_getLast? he)
            exact ⟨h.keys e heLs ▸ heLs, hin⟩
          · rintro ⟨hL, hin⟩
            rcases hmem _ hL with hx | hx
            · exact ⟨_, getLast?_contains hxs hlow hx hin.2, if_pos hin⟩
            · have hlt := habove _ hx
              dsimp only at hlt
              omega
        · rcases hmem e he with hx | hx
          · exact absurd heq (hlow e hx).ne
          · exact absurd heq (habove e hx).ne'

/-! ### Intervals -/

theorem le_codeEnd (ub : Int) (rest : List Instr) : ub ≤ codeEnd ub rest := by
  induction rest generalizing ub with
  | nil => exact le_rfl
  | cons I rest ih =>
      rw [codeEnd]
      split_ifs with h
      · have hle := ih (I.address + I.size)
        omega
      · exact le_rfl

theorem le_codeEndFrom (Is : List Instr) (lb : Int) : lb ≤ codeEndFrom Is lb := by
  rw [codeEndFrom]
  split
  · exact le_rfl
  · exact le_codeEnd _ _

/-- Addresses have 48 bits, and sizes four. -/
def FieldsFit (Is : List Instr) : Prop := ∀ I ∈ Is, I.address < 2 ^ 48 ∧ I.size < 2 ^ 4

theorem codeEnd_le {ub : Int} {rest : List Instr} (hub : ub ≤ INTPTR_MAX) (hrest : FieldsFit rest) :
    codeEnd ub rest ≤ INTPTR_MAX := by
  induction rest generalizing ub with
  | nil => exact hub
  | cons I rest ih =>
      obtain ⟨hI, hrest⟩ := List.forall_mem_cons.mp hrest
      rw [codeEnd]
      split_ifs with h
      · refine ih ?_ hrest
        rw [INTPTR_MAX]
        omega
      · exact hub

theorem codeEndFrom_le (hIs : FieldsFit Is) {lb : Int} (hlb : lb ≤ INTPTR_MAX) : codeEndFrom Is lb ≤ INTPTR_MAX := by
  rw [codeEndFrom]
  split
  · exact hlb
  · exact codeEnd_le hlb fun I hI => hIs I (List.mem_of_mem_drop hI)

/-- The lines that end with the code: the last one, and one before a line at the greatest address. -/
def openRuns : Line → List Line → List Line
  | line, [] => [line]
  | line, L :: rest =>
    if sameLine L line then openRuns line rest
    else if L.lb = INTPTR_MAX then line :: openRuns L rest
    else openRuns L rest

theorem sameLine_iff {line_1 line_2 : Line} : sameLine line_1 line_2 = true ↔
    line_1.line = line_2.line ∧ line_1.dir = line_2.dir ∧ line_1.file = line_2.file := by
  rw [sameLine, decide_eq_true_iff]

/-- The first interval is that of the first line; the others start at lines behind it. -/
theorem lineRuns_cons (Is : List Instr) (line : Line) (rest : List Line) :
    ∃ ub Es, lineRuns Is line rest = { line with ub := ub } :: Es ∧ ∀ E ∈ Es, ∃ L ∈ rest, L.lb = E.lb := by
  induction rest generalizing line with
  | nil => exact ⟨_, [], rfl, fun E hE => nomatch hE⟩
  | cons L rest ih =>
      rw [lineRuns]
      split_ifs with hsame
      · obtain ⟨ub, Es, heq, hEs⟩ := ih line
        refine ⟨ub, Es, heq, fun E hE => ?_⟩
        obtain ⟨L', hL', hlb⟩ := hEs E hE
        exact ⟨L', List.mem_cons_of_mem _ hL', hlb⟩
      · obtain ⟨ub, Es, heq, hEs⟩ := ih L
        refine ⟨_, _, rfl, fun E hE => ?_⟩
        rw [heq] at hE
        rcases List.mem_cons.mp hE with rfl | hE
        · exact ⟨L, List.mem_cons_self, rfl⟩
        · obtain ⟨L', hL', hlb⟩ := hEs E hE
          exact ⟨L', List.mem_cons_of_mem _ hL', hlb⟩

/-- Every interval starts at a line. -/
theorem lineRuns_starts {line : Line} {rest : List Line} {E : Line} (hE : E ∈ lineRuns Is line rest) :
    ∃ L ∈ line :: rest, L.lb = E.lb := by
  obtain ⟨ub, Es, heq, hEs⟩ := lineRuns_cons Is line rest
  rw [heq] at hE
  rcases List.mem_cons.mp hE with rfl | hE
  · exact ⟨line, List.mem_cons_self, rfl⟩
  · obtain ⟨L, hL, hlb⟩ := hEs E hE
    exact ⟨L, List.mem_cons_of_mem _ hL, hlb⟩

/-- Lines in the order of their addresses. -/
def Recorded (lines : List Line) : Prop :=
  (lines.Pairwise fun a b => a.lb < b.lb) ∧ ∀ L ∈ lines, L.lb ≤ INTPTR_MAX

theorem Recorded.tail {line : Line} {rest : List Line} (h : Recorded (line :: rest)) : Recorded rest :=
  ⟨h.1.of_cons, fun L hL => h.2 L (List.mem_cons_of_mem _ hL)⟩

/-- A line of the run is passed over. -/
theorem Recorded.skip {line L : Line} {rest : List Line} (h : Recorded (line :: L :: rest)) : Recorded (line :: rest) :=
  ⟨h.1.sublist ((List.sublist_cons_self L rest).cons_cons line), fun L' hL' => by
    rcases List.mem_cons.mp hL' with rfl | hL'
    · exact h.2 _ List.mem_cons_self
    · exact h.2 _ (List.mem_cons_of_mem _ (List.mem_cons_of_mem _ hL'))⟩

/-- An interval before a line at another address does not reach over its start. -/
theorem lineEnd_some (hIs : FieldsFit Is) {line L : Line} {rest : List Line} (h : Recorded (line :: L :: rest)) :
    line.lb ≤ lineEnd Is line.lb (some L) ∧ lineEnd Is line.lb (some L) ≤ L.lb ∧
      (L.lb ≠ INTPTR_MAX → line.lb < lineEnd Is line.lb (some L)) := by
  have hlt : line.lb < L.lb := (List.pairwise_cons.mp h.1).1 L List.mem_cons_self
  rw [lineEnd, Option.map_some, Option.getD_some]
  split_ifs with hmax
  · refine ⟨le_codeEndFrom Is line.lb, ?_, fun hne => absurd hmax hne⟩
    rw [hmax]
    exact codeEndFrom_le hIs (h.2 line List.mem_cons_self)
  · exact ⟨hlt.le, le_rfl, fun _ => hlt⟩

theorem lineRuns_intervals (hIs : FieldsFit Is) {line : Line} {rest : List Line} (h : Recorded (line :: rest)) :
    ((lineRuns Is line rest).Pairwise fun a b => a.lb < b.lb ∧ a.ub ≤ b.lb) ∧
      ∀ E ∈ lineRuns Is line rest, E.lb ≤ E.ub ∧ line.lb ≤ E.lb := by
  induction rest generalizing line with
  | nil =>
      refine ⟨List.pairwise_singleton _ _, fun E hE => ?_⟩
      obtain rfl := List.mem_singleton.mp hE
      exact ⟨le_codeEndFrom Is line.lb, le_rfl⟩
  | cons L rest ih =>
      rw [lineRuns]
      split_ifs with hsame
      · exact ih h.skip
      · obtain ⟨h1, h2⟩ := ih h.tail
        obtain ⟨g1, g2, -⟩ := lineEnd_some hIs h
        have hlt : line.lb < L.lb := (List.pairwise_cons.mp h.1).1 L List.mem_cons_self
        refine ⟨List.pairwise_cons.mpr ⟨fun E hE => ?_, h1⟩, fun E hE => ?_⟩
        · have hle := (h2 E hE).2
          exact ⟨hlt.trans_le hle, g2.trans hle⟩
        · rcases List.mem_cons.mp hE with rfl | hE
          · exact ⟨g1, le_rfl⟩
          · exact ⟨(h2 E hE).1, hlt.le.trans (h2 E hE).2⟩

/-- Neighbours are intervals of different lines. -/
theorem lineRuns_chain (Is : List Instr) (line : Line) (rest : List Line) :
    (lineRuns Is line rest).IsChain fun a b => sameLine b a = false := by
  induction rest generalizing line with
  | nil => exact List.IsChain.singleton _
  | cons L rest ih =>
      rw [lineRuns]
      split_ifs with hsame
      · exact ih line
      · have hchain := ih L
        obtain ⟨ub, Es, heq, -⟩ := lineRuns_cons Is L rest
        rw [heq] at hchain ⊢
        exact List.isChain_cons_cons.mpr ⟨Bool.eq_false_iff.mpr hsame, hchain⟩

/-- Every line is in the interval before it, which is of the same line. -/
theorem lineRuns_covers (Is : List Instr) {line : Line} {rest : List Line} (h : Recorded (line :: rest)) {L : Line}
    (hL : L ∈ line :: rest) : ∃ E ∈ lineRuns Is line rest, sameLine L E = true ∧ E.lb ≤ L.lb ∧
      ∀ E' ∈ lineRuns Is line rest, E'.lb ≤ L.lb → E'.lb ≤ E.lb := by
  induction rest generalizing line with
  | nil =>
      obtain rfl := List.mem_singleton.mp hL
      refine ⟨_, List.mem_cons_self, sameLine_iff.mpr ⟨rfl, rfl, rfl⟩, le_rfl, fun E' hE' _ => ?_⟩
      rw [List.mem_singleton.mp hE']
  | cons N rest ih =>
      have hlt : ∀ M ∈ N :: rest, line.lb < M.lb := (List.pairwise_cons.mp h.1).1
      have hlt' : ∀ M ∈ rest, N.lb < M.lb := (List.pairwise_cons.mp h.tail.1).1
      rw [lineRuns]
      split_ifs with hsame
      · by_cases hN : L = N
        · -- the line is passed over, and the next intervals start behind it
          obtain ⟨ub, Es, heq, hEs⟩ := lineRuns_cons Is line rest
          rw [heq, hN]
          refine ⟨_, List.mem_cons_self, hsame, (hlt N List.mem_cons_self).le, fun E' hE' hle => ?_⟩
          rcases List.mem_cons.mp hE' with rfl | hE'
          · exact le_rfl
          · obtain ⟨M, hM, hlb⟩ := hEs E' hE'
            have hN' := hlt' M hM
            omega
        · refine ih h.skip ?_
          rcases List.mem_cons.mp hL with rfl | hL
          · exact List.mem_cons_self
          · exact List.mem_cons_of_mem _ ((List.mem_cons.mp hL).resolve_left hN)
      · rcases List.mem_cons.mp hL with rfl | hL
        · refine ⟨_, List.mem_cons_self, sameLine_iff.mpr ⟨rfl, rfl, rfl⟩, le_rfl, fun E' hE' hle => ?_⟩
          rcases List.mem_cons.mp hE' with rfl | hE'
          · exact le_rfl
          · exact hle
        · obtain ⟨E, hE, h1, h2, h3⟩ := ih h.tail hL
          refine ⟨E, List.mem_cons_of_mem _ hE, h1, h2, fun E' hE' hle => ?_⟩
          rcases List.mem_cons.mp hE' with rfl | hE'
          · obtain ⟨M, hM, hlb⟩ := lineRuns_starts hE
            exact hlb ▸ (hlt M hM).le
          · exact h3 E' hE' hle

/-- The last interval is that of the last run, and ends with the code. -/
theorem lineRuns_last (Is : List Instr) (line : Line) (rest : List Line) :
    ∃ L, (openRuns line rest).getLast? = some L ∧
      (lineRuns Is line rest).getLast? = some { L with ub := codeEndFrom Is L.lb } := by
  induction rest generalizing line with
  | nil => exact ⟨line, rfl, rfl⟩
  | cons N rest ih =>
      rw [openRuns, lineRuns]
      split_ifs with hsame hmax
      · exact ih line
      · obtain ⟨L, h1, h2⟩ := ih N
        refine ⟨L, ?_, ?_⟩
        · rw [List.getLast?_cons, h1]
          rfl
        · rw [List.getLast?_cons, h2]
          rfl
      · obtain ⟨L, h1, h2⟩ := ih N
        refine ⟨L, h1, ?_⟩
        rw [List.getLast?_cons, h2]
        rfl

/-- Only an interval that ends with the code can be empty. -/
theorem lineRuns_empty_iff (hIs : FieldsFit Is) {line : Line} {rest : List Line} (h : Recorded (line :: rest))
    (lb : Int) : (∃ E ∈ lineRuns Is line rest, E.lb = lb ∧ E.ub = lb) ↔
      ∃ L ∈ openRuns line rest, L.lb = lb ∧ codeEndFrom Is lb = lb := by
  induction rest generalizing line with
  | nil =>
      rw [lineRuns, openRuns]
      constructor
      · rintro ⟨E, hE, rfl, hub⟩
        obtain rfl := List.mem_singleton.mp hE
        exact ⟨line, List.mem_cons_self, rfl, hub⟩
      · rintro ⟨L, hL, rfl, hub⟩
        obtain rfl := List.mem_singleton.mp hL
        exact ⟨_, List.mem_cons_self, rfl, hub⟩
  | cons N rest ih =>
      obtain ⟨-, -, hlt⟩ := lineEnd_some hIs h
      rw [lineRuns, openRuns]
      split_ifs with hsame hmax
      · exact ih h.skip
      · have hend : lineEnd Is line.lb (some N) = codeEndFrom Is line.lb := if_pos hmax
        rw [List.exists_mem_cons_iff, List.exists_mem_cons_iff, ih h.tail, hend]
        refine or_congr_left (and_congr_right fun hlb => ?_)
        dsimp only at hlb
        rw [hlb]
      · rw [List.exists_mem_cons_iff, ih h.tail]
        refine or_iff_right ?_
        rintro ⟨hlb, hub⟩
        dsimp only at hlb hub
        have hlt' := hlt hmax
        omega

/-! ### The map -/

/-- What the lookup misses: an address inside the last line, and the start of a line of no code. -/
def Findable (Is : List Instr) (addr : Int) : List Line → Prop
  | [] => True
  | line :: rest =>
    (∀ L ∈ (openRuns line rest).getLast?, ¬(L.lb < addr ∧ addr < codeEndFrom Is L.lb)) ∧
      ∀ L ∈ openRuns line rest, L.lb = addr → codeEndFrom Is addr ≠ addr

/-- Runs of one line are merged: neighbours are different lines, and each record has its line in the interval that
starts last among those before it. -/
structure Merged (lines : List Line) (Ls : Lines) : Prop where
  maximal : Ls.IsChain fun a b => sameLine b.2 a.2 = false
  starts : ∀ e ∈ Ls, ∃ L ∈ lines, L.lb = e.2.lb
  covers : ∀ L ∈ lines, ∃ e ∈ Ls, sameLine L e.2 = true ∧ e.2.lb ≤ L.lb ∧ ∀ e' ∈ Ls, e'.2.lb ≤ L.lb → e'.2.lb ≤ e.2.lb

theorem signed64_le (x : Int) : signed64 x ≤ INTPTR_MAX := by
  rw [signed64, INTPTR_MAX]
  omega

theorem toLine_le {dir : Option (List UInt8)} {record : Dwarf_Line} {L : Line} (h : record.toLine dir = some L) :
    L.lb ≤ INTPTR_MAX := by
  rw [Dwarf_Line.toLine] at h
  split_ifs at h
  · obtain rfl := Option.some.inj h
    exact signed64_le _
  · obtain rfl := Option.some.inj h
    exact signed64_le _

theorem recorded_recordedLines (units : List Dwarf_Lines) : Recorded (recordedLines units) := by
  rw [recordedLines]
  refine ⟨List.pairwise_map.mpr ?_, fun L hL => ?_⟩
  · refine (OrderedMap.sorted_collect _).imp_of_mem fun {a b} ha hb hab => ?_
    rw [(OrderedMap.collect_mem ha).1, (OrderedMap.collect_mem hb).1]
    exact hab
  · obtain ⟨⟨k, L⟩, he, rfl⟩ := List.mem_map.mp hL
    obtain ⟨-, r, -, hr⟩ := OrderedMap.collect_mem he
    exact toLine_le hr

theorem buildLines_eq (h : (mergeLines Is (recordedLines units)).Pairwise fun a b => a.lb < b.lb) :
    buildLines units Is = (mergeLines Is (recordedLines units)).map fun L => (L.lb, L) :=
  OrderedMap.collect_ascending rfl h

/-- **Source lines.** -/
theorem buildLines_findLine_iff (hIs : FieldsFit Is) (units : List Dwarf_Lines) (addr : Int) :
    LineMap (buildLines units Is) ∧ Merged (recordedLines units) (buildLines units Is) ∧
      (FindsLine (buildLines units Is) addr ↔ Findable Is addr (recordedLines units)) := by
  have hrecorded := recorded_recordedLines units
  cases hlines : recordedLines units with
  | nil =>
      have hnone : buildLines units Is = [] := by
        rw [buildLines, hlines]
        rfl
      rw [hnone]
      have hmap : LineMap [] := ⟨List.forall_mem_nil _, List.forall_mem_nil _, List.Pairwise.nil⟩
      refine ⟨hmap, ⟨List.IsChain.nil, List.forall_mem_nil _, List.forall_mem_nil _⟩, ?_⟩
      rw [hmap.findsLine_iff]
      refine iff_of_true ⟨fun e he => ?_, List.forall_mem_nil _⟩ trivial
      cases he
  | cons line rest =>
      rw [hlines] at hrecorded
      obtain ⟨hpair, hle⟩ := lineRuns_intervals hIs hrecorded
      have hmerge : mergeLines Is (recordedLines units) = lineRuns Is line rest := by
        rw [hlines]
        rfl
      have hLs : buildLines units Is = (lineRuns Is line rest).map fun L => (L.lb, L) := by
        rw [← hmerge]
        exact buildLines_eq (hmerge ▸ hpair.imp And.left)
      have hmap : LineMap (buildLines units Is) := by
        rw [hLs]
        refine ⟨List.forall_mem_map.mpr fun E _ => rfl, List.forall_mem_map.mpr fun E hE => (hle E hE).1, ?_⟩
        exact List.pairwise_map.mpr hpair
      refine ⟨hmap, ?_, ?_⟩
      · rw [hLs]
        refine ⟨?_, List.forall_mem_map.mpr fun E hE => lineRuns_starts hE, fun L hL => ?_⟩
        · exact (List.isChain_map _).mpr (lineRuns_chain Is line rest)
        · obtain ⟨E, hE, h1, h2, h3⟩ := lineRuns_covers Is hrecorded hL
          exact ⟨_, List.mem_map_of_mem hE, h1, h2, List.forall_mem_map.mpr h3⟩
      · obtain ⟨L, hopen, hlast⟩ := lineRuns_last Is line rest
        rw [hmap.findsLine_iff, hLs, List.getLast?_map, hlast, Findable, hopen]
        refine and_congr ?_ ?_
        · simp
        · have hempty := lineRuns_empty_iff hIs hrecorded addr
          constructor
          · intro h L' hL' hlb hend
            obtain ⟨E, hE, h1, h2⟩ := hempty.mpr ⟨L', hL', hlb, hend⟩
            exact h _ (List.mem_map_of_mem hE) h1 h2
          · intro h e he hlb hub
            obtain ⟨E, hE, rfl⟩ := List.mem_map.mp he
            obtain ⟨L', hL', h1, h2⟩ := hempty.mp ⟨E, hE, hlb, hub⟩
            exact h L' hL' h1 h2

/-- A file with one line, and four bytes of code from its address on. -/
def oneLine : List Dwarf_Lines := [⟨none, [⟨0x1000, [0x61], 1⟩]⟩]

def lineInstrs : List Instr := [⟨0x1000, 3, 0, false, false, false⟩, ⟨0x1003, 1, 3, false, false, false⟩]

theorem lineInstrs_fit : FieldsFit lineInstrs := by
  unfold FieldsFit
  decide

theorem buildLines_findLine_iff_code : LineMap (buildLines oneLine lineInstrs) ∧
    Merged (recordedLines oneLine) (buildLines oneLine lineInstrs) ∧
      (FindsLine (buildLines oneLine lineInstrs) 0x1001 ↔ Findable lineInstrs 0x1001 (recordedLines oneLine)) :=
  buildLines_findLine_iff lineInstrs_fit oneLine 0x1001

/-- An address inside the last line is not found, and the start of a line without code is. -/
theorem findLine_last :
    buildLines oneLine lineInstrs = [(0x1000, ⟨0x1000, 0x1004, none, [0x61], 1⟩)] ∧
      findLine (buildLines oneLine lineInstrs) 0x1001 = none ∧ ¬FindsLine (buildLines oneLine lineInstrs) 0x1001 ∧
    buildLines oneLine [] = [(0x1000, ⟨0x1000, 0x1000, none, [0x61], 1⟩)] ∧
      findLine (buildLines oneLine []) 0x1000 = some ⟨0x1000, 0x1000, none, [0x61], 1⟩ ∧
      ¬FindsLine (buildLines oneLine []) 0x1000 := by
  have hcode : buildLines oneLine lineInstrs = [(0x1000, ⟨0x1000, 0x1004, none, [0x61], 1⟩)] := by decide
  have hnone : buildLines oneLine [] = [(0x1000, ⟨0x1000, 0x1000, none, [0x61], 1⟩)] := by decide
  have hinside : findLine (buildLines oneLine lineInstrs) 0x1001 = none := by
    rw [hcode]
    decide
  have hempty : findLine (buildLines oneLine []) 0x1000 = some ⟨0x1000, 0x1000, none, [0x61], 1⟩ := by
    rw [hnone]
    decide
  refine ⟨hcode, hinside, fun h => ?_, hnone, hempty, fun h => ?_⟩
  · have hfound := (h ⟨0x1000, 0x1004, none, [0x61], 1⟩).mpr ⟨hcode ▸ List.mem_cons_self, by decide, by decide⟩
    rw [hinside] at hfound
    cases hfound
  · exact absurd ((h _).mp hempty).2.2 (by decide)

end E9Tool
