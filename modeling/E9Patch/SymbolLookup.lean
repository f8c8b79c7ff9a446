import E9Patch.TypesModel

/-!
Lookups of symbols and their cache. A lookup should give the exported symbol whose signature is nearest, but
the results of earlier lookups are symbols too, and a chain of two coercions may be nearer than the one it
should take. Where no earlier result comes first, every lookup of a run gives the nearest symbol.
-/

namespace E9Tool
open E9Patch (Elf64_Sym STT_FUNC INTPTR_MIN)

/-- The functions that the file defines. -/
def Exports.defined (elf : Exports) : Exports := { elf with dynsyms := elf.dynsyms.filter fun entry => entry.2.isFunction }

def Exports.exported (elf : Exports) : Symbols := elf.defined.build

/-- Signature `s` comes before `s'` for the arguments `sig`: the exact one first, then by score, then by order. -/
def Before (sig s s' : Nat) : Prop :=
  s = sig ∨ s' ≠ sig ∧ (coercible sig s < coercible sig s' ∨ coercible sig s = coercible sig s' ∧ s ≤ s')

/-- The symbol with signature `s` is the nearest one. -/
structure NearestSymbol (symbols : Symbols) (name : List UInt8) (sig s : Nat) (addr : Int) : Prop where
  mem : (⟨name, s⟩, addr) ∈ symbols
  coerces : 0 ≤ coercible sig s
  least : ∀ s' addr', (⟨name, s'⟩, addr') ∈ symbols → 0 ≤ coercible sig s' → Before sig s s'

/-- What a lookup should give: the address of the nearest symbol, or the least address if there is none. -/
def Resolves (symbols : Symbols) (name : List UInt8) (sig : Nat) (addr : Int) : Prop :=
  (∃ s, NearestSymbol symbols name sig s addr) ∨
    (∀ s addr', (⟨name, s⟩, addr') ∈ symbols → coercible sig s < 0) ∧ addr = INTPTR_MIN

theorem Before.antisymm {sig s s' : Nat} (h : Before sig s s') (h' : Before sig s' s) : s = s' := by
  rcases h with rfl | ⟨hne, h⟩
  · rcases h' with rfl | ⟨hne', -⟩
    · rfl
    · exact absurd rfl hne'
  · rcases h' with rfl | ⟨-, h'⟩
    · exact absurd rfl hne
    · omega

/-- There is one thing that a lookup should give. -/
theorem Resolves.unique {symbols : Symbols} (hsorted : OrderedMap.Sorted symbols) {name : List UInt8} {sig : Nat}
    {addr addr' : Int} (h : Resolves symbols name sig addr) (h' : Resolves symbols name sig addr') : addr = addr' := by
  rcases h with ⟨s, h⟩ | ⟨hnone, rfl⟩
  · rcases h' with ⟨s', h'⟩ | ⟨hnone, -⟩
    · obtain rfl := (h.least s' addr' h'.mem h'.coerces).antisymm (h'.least s addr h.mem h.coerces)
      have hfind := hsorted.find_iff.mpr h.mem
      rw [hsorted.find_iff.mpr h'.mem] at hfind
      exact (Option.some.inj hfind).symm
    · have := hnone s addr h.mem
      have := h.coerces
      omega
  · rcases h' with ⟨s', h'⟩ | ⟨-, rfl⟩
    · have := hnone s' addr' h'.mem
      have := h'.coerces
      omega
    · rfl

/-! ### Scores -/

theorem isInt_bounds {t : Nat} (h : isInt t = true) : 2 ≤ t ∧ t ≤ 5 := by
  have h := of_decide_eq_true h
  unfold TYPE_INT8 TYPE_INT16 TYPE_INT32 TYPE_INT64 at h
  omega

theorem coercibleType_le (t u : Nat) : coercibleType t u ≤ 9 := by
  have hptr : ∀ ptr, ∀ x ∈ coerciblePtr ptr t u, x ≤ 9 := by
    intro ptr x hx
    unfold coerciblePtr at hx
    repeat' split at hx
    all_goals cases hx <;> decide
  unfold coercibleType
  split
  · decide
  · split
    · decide
    · split
      · split
        · rename_i ht hu
          have := isInt_bounds ht
          have := isInt_bounds hu
          omega
        · decide
      · split
        · decide
        · cases hp : (coerciblePtr TYPE_PTR t u).or (coerciblePtr TYPE_PTR_PTR t u) with
          | none => decide
          | some x =>
              rcases Option.or_eq_some_iff.mp hp with h | ⟨-, h⟩
              · exact hptr _ x h
              · exact hptr _ x h

theorem coercibleFrom_lt (sig1 sig2 n i : Nat) {score : Int} (hscore : 0 ≤ score) :
    coercibleFrom sig1 sig2 n i score < (score + 1) * 16 ^ n := by
  induction n generalizing i score with
  | zero =>
      simp only [coercibleFrom, Int.pow_zero, Int.mul_one]
      omega
  | succ n ih =>
      unfold coercibleFrom
      simp only
      have hpow : (0 : Int) < 16 ^ n := Int.pow_pos (by decide)
      split
      · have := Int.mul_pos (show 0 < score + 1 by omega) (show (0 : Int) < 16 ^ (n + 1) from Int.pow_pos (by decide))
        omega
      · rename_i hs
        have hle := coercibleType_le (getType sig1 i) (getType sig2 i)
        refine Int.lt_of_lt_of_le (ih (i + 1) (by omega)) ?_
        rw [Int.pow_succ', ← Int.mul_assoc]
        exact Int.mul_le_mul_of_nonneg_right (by omega) (Int.le_of_lt hpow)

/-- Any score is less than the one that the search starts with. -/
theorem coercible_lt (sig1 sig2 : Nat) : coercible sig1 sig2 < LONG_MAX := by
  unfold coercible
  split
  · unfold LONG_MAX
    omega
  · have h := coercibleFrom_lt sig1 sig2 MAX_ARGNO 0 (Int.le_refl 0)
    unfold LONG_MAX
    simp only [MAX_ARGNO] at h ⊢
    omega

/-- A signature is coercible into itself. -/
theorem coercible_self (sig : Nat) : 0 ≤ coercible sig sig := by
  have hfrom : ∀ n i, coercibleFrom sig sig n i 0 = 0 := by
    intro n
    induction n with
    | zero => exact fun i => rfl
    | succ n ih =>
        intro i
        unfold coercibleFrom coercibleType
        simp only [if_true, Int.lt_irrefl, if_false]
        exact ih (i + 1)
  unfold coercible
  split
  · decide
  · rw [hfrom]

/-! ### The search -/

/-- A symbol that the search may take. -/
def Candidate (sig : Nat) (e : Symbol × Int) : Prop := 0 ≤ coercible sig e.1.sig ∧ e.2 ≠ INTPTR_MIN

/-- The search takes the first of the nearest candidates. -/
theorem search_spec (sig : Nat) {symbols : Symbols} (hsorted : symbols.Pairwise fun e e' => e.1.sig < e'.1.sig) :
    (∃ e ∈ symbols, Candidate sig e ∧
      symbols.foldl (nearer sig) (LONG_MAX, INTPTR_MIN) = (coercible sig e.1.sig, (e.2.natAbs : Int)) ∧
      ∀ e' ∈ symbols, Candidate sig e' → coercible sig e.1.sig < coercible sig e'.1.sig ∨
        coercible sig e.1.sig = coercible sig e'.1.sig ∧ e.1.sig ≤ e'.1.sig) ∨
    (∀ e ∈ symbols, ¬Candidate sig e) ∧
      symbols.foldl (nearer sig) (LONG_MAX, INTPTR_MIN) = (LONG_MAX, INTPTR_MIN) := by
  induction symbols using List.reverseRecOn with
  | nil => exact Or.inr ⟨List.forall_mem_nil _, rfl⟩
  | append_singleton symbols e ih =>
      obtain ⟨hbefore, -, hlast⟩ := List.pairwise_append.mp hsorted
      rw [List.foldl_append, List.foldl_cons, List.foldl_nil]
      by_cases hcand : Candidate sig e
      · have hcoerces : ¬coercible sig e.1.sig < 0 := Int.not_lt.mpr hcand.1
        rcases ih hbefore with ⟨w, hw, hwcand, hfold, hleast⟩ | ⟨hnone, hfold⟩
        · rw [hfold]
          by_cases hlt : coercible sig e.1.sig < coercible sig w.1.sig
          · refine Or.inl ⟨e, by simp, hcand, ?_, fun e' he' hcand' => ?_⟩
            · simp only [nearer, if_neg hcoerces, if_pos (And.intro hcand.2 hlt)]
            · rcases List.mem_append.mp he' with he' | he'
              · have := hleast e' he' hcand'
                omega
              · rw [List.mem_singleton.mp he']
                omega
          · refine Or.inl ⟨w, by simp [hw], hwcand, ?_, fun e' he' hcand' => ?_⟩
            · simp only [nearer, if_neg hcoerces, if_neg (fun h : e.2 ≠ INTPTR_MIN ∧ _ => hlt h.2)]
            · rcases List.mem_append.mp he' with he' | he'
              · exact hleast e' he' hcand'
              · have horder := hlast w hw e (by simp)
                rw [List.mem_singleton.mp he']
                omega
        · rw [hfold]
          refine Or.inl ⟨e, by simp, hcand, ?_, fun e' he' hcand' => ?_⟩
          · simp only [nearer, if_neg hcoerces, if_pos (And.intro hcand.2 (coercible_lt sig e.1.sig))]
          · rcases List.mem_append.mp he' with he' | he'
            · exact absurd hcand' (hnone e' he')
            · rw [List.mem_singleton.mp he']
              omega
      · have hskip : ∀ best, nearer sig best e = best := by
          intro best
          unfold nearer
          simp only
          split
          · rfl
          · rename_i hcoerces
            rw [if_neg (fun h => hcand ⟨Int.not_lt.mp hcoerces, h.1⟩)]
        rw [hskip]
        rcases ih hbefore with ⟨w, hw, hwcand, hfold, hleast⟩ | ⟨hnone, hfold⟩
        · refine Or.inl ⟨w, by simp [hw], hwcand, hfold, fun e' he' hcand' => ?_⟩
          rcases List.mem_append.mp he' with he' | he'
          · exact hleast e' he' hcand'
          · exact absurd (List.mem_singleton.mp he' ▸ hcand') hcand
        · refine Or.inr ⟨fun e' he' => ?_, hfold⟩
          rcases List.mem_append.mp he' with he' | he'
          · exact hnone e' he'
          · exact List.mem_singleton.mp he' ▸ hcand

/-! ### Symbols in their order -/

theorem sig_lt {a b : Symbol} (h : a < b) (hname : a.name = b.name) : a.sig < b.sig := by
  have hkey : a.key < b.key := h
  unfold Symbol.key at hkey
  rw [Prod.Lex.toLex_lt_toLex, hname] at hkey
  rcases hkey with hlt | ⟨-, hlt⟩
  · exact absurd hlt (lt_irrefl _)
  · exact hlt

theorem symbolsOf_ascending {symbols : Symbols} (h : OrderedMap.Sorted symbols) (name : List UInt8) :
    (symbolsOf symbols name).Pairwise fun e e' => e.1.sig < e'.1.sig := by
  refine (h.filter _).imp_of_mem fun {e e'} he he' hlt => sig_lt hlt ?_
  have hname := (List.mem_filter.mp he).2
  have hname' := (List.mem_filter.mp he').2
  simp only [decide_eq_true_eq] at hname hname'
  rw [hname, hname']

theorem parseSymbol_sorted {symbols : Symbols} (h : OrderedMap.Sorted symbols) (name : List UInt8) (addr : Int) :
    OrderedMap.Sorted (parseSymbol symbols name addr) := by
  have hinsert : ∀ {symbols : Symbols}, OrderedMap.Sorted symbols → ∀ name sig,
      OrderedMap.Sorted (insertSymbol symbols name sig addr) :=
    fun h name sig => OrderedMap.sorted_insert h _ _
  unfold parseSymbol
  split
  · split
    · split
      · exact h
      · split
        · exact hinsert h _ _
        · split
          · exact hinsert h _ _
          · simp only
            split
            · exact hinsert (hinsert h _ _) _ _
            · exact hinsert h _ _
    · exact hinsert h _ _
  · exact hinsert h _ _

theorem build_sorted (elf : Exports) : OrderedMap.Sorted elf.build := by
  have hfold : ∀ (dynsyms : List (List UInt8 × Elf64_Sym)) (symbols : Symbols), OrderedMap.Sorted symbols →
      OrderedMap.Sorted (dynsyms.foldl (fun symbols entry =>
        if entry.2.st_info &&& 0xf = STT_FUNC then
          parseSymbol symbols entry.1 (Bytes.signed64 (elf.base + entry.2.st_value))
        else symbols) symbols) := by
    intro dynsyms
    induction dynsyms with
    | nil => exact fun _ h => h
    | cons entry dynsyms ih =>
        intro symbols h
        rw [List.foldl_cons]
        refine ih _ ?_
        split
        · exact parseSymbol_sorted h _ _
        · exact h
  exact hfold elf.dynsyms [] List.Pairwise.nil

/-! ### Runs of lookups -/

/-- The cache after a run of lookups. -/
def Exports.after (elf : Exports) (qs : List Symbol) : Symbols :=
  qs.foldl (fun symbols q => (lookupSymbol elf symbols q.name q.sig).2) []

/-- What a lookup returns after a run. -/
def Exports.answer (elf : Exports) (pre : List Symbol) (q : Symbol) : Int :=
  (lookupSymbol elf (elf.after pre) q.name q.sig).1

/-- The lookup has a result that is kept. -/
def Resolved (elf : Exports) (p : Symbol) : Prop := ∃ addr, addr ≠ INTPTR_MIN ∧ Resolves elf.exported p.name p.sig addr

/-- The result of an earlier lookup comes before every exported symbol and every other result. -/
structure Overtakes (elf : Exports) (pre : List Symbol) (q p : Symbol) : Prop where
  earlier : p ∈ pre
  name : p.name = q.name
  derived : ∀ addr, (p, addr) ∉ elf.exported
  resolved : Resolved elf p
  coerces : 0 ≤ coercible q.sig p.sig
  exported : ∀ s addr, (⟨q.name, s⟩, addr) ∈ elf.exported → 0 ≤ coercible q.sig s → Before q.sig p.sig s
  others : ∀ p' ∈ pre, p'.name = q.name → Resolved elf p' → 0 ≤ coercible q.sig p'.sig → Before q.sig p.sig p'.sig

/-- The functions of the name are defined and at no negative address, and an earlier result that overtakes is
the address that should be given. -/
structure Clear (elf : Exports) (pre : List Symbol) (q : Symbol) : Prop where
  defined : symbolsOf elf.build q.name = symbolsOf elf.exported q.name
  nonneg : ∀ e ∈ symbolsOf elf.exported q.name, 0 ≤ e.2
  undisturbed : q ∉ pre → ∀ p, Overtakes elf pre q p →
    ∀ addr, Resolves elf.exported p.name p.sig addr → Resolves elf.exported q.name q.sig addr

/-- The cache that a lookup goes by. -/
def Exports.table (elf : Exports) (symbols : Symbols) : Symbols := if symbols.length = 0 then elf.build else symbols

/-- How the result of a lookup is kept. -/
def kept (addr : Int) : Int := if addr > 0 then -addr else addr

/-- The cache has the functions of the file and the results of earlier lookups, which were right. -/
structure CacheOk (elf : Exports) (pre : List Symbol) (symbols : Symbols) : Prop where
  sorted : OrderedMap.Sorted symbols
  built : ∀ p addr, OrderedMap.find elf.build p = some addr → OrderedMap.find symbols p = some addr
  derived : ∀ p ∈ pre, OrderedMap.find elf.build p = none →
    ∃ addr, Resolves elf.exported p.name p.sig addr ∧ OrderedMap.find symbols p = some (kept addr)
  other : ∀ p, p ∉ pre → OrderedMap.find elf.build p = none → OrderedMap.find symbols p = none

section
variable {elf : Exports} {pre : List Symbol} {q : Symbol} {symbols : Symbols}

theorem mem_symbolsOf {name : List UInt8} {e : Symbol × Int} :
    e ∈ symbolsOf symbols name ↔ e ∈ symbols ∧ e.1.name = name := by
  simp [symbolsOf]

theorem Clear.mem_build (h : Clear elf pre q) {p : Symbol} (hname : p.name = q.name) {addr : Int} :
    (p, addr) ∈ elf.build ↔ (p, addr) ∈ elf.exported := by
  have hiff := congrArg (fun l => (p, addr) ∈ l) h.defined
  simpa [mem_symbolsOf, hname] using hiff

/-- An exported symbol is its own nearest one. -/
theorem resolves_exact {addr : Int} (h : (q, addr) ∈ elf.exported) : Resolves elf.exported q.name q.sig addr :=
  Or.inl ⟨q.sig, h, coercible_self _, fun _ _ _ _ => Or.inl rfl⟩

theorem mem_insertSymbol (h : OrderedMap.Sorted symbols) {name : List UInt8} {sig : Nat} {addr : Int}
    {e : Symbol × Int} (he : e ∈ insertSymbol symbols name sig addr) : e ∈ symbols ∨ e.2 = addr := by
  have hfind := (OrderedMap.sorted_insert h _ _).find_iff.mpr (show (e.1, e.2) ∈ insertSymbol symbols name sig addr from he)
  rw [OrderedMap.find_insert h] at hfind
  split at hfind
  · rename_i hkey
    cases hold : OrderedMap.find symbols ⟨name, sig⟩ with
    | none =>
        rw [hold] at hfind
        exact Or.inr (Option.some.inj hfind).symm
    | some old =>
        rw [hold] at hfind
        have hvalue : old = e.2 := Option.some.inj hfind
        have hmem := OrderedMap.mem_of_find hold
        rw [← hkey, hvalue] at hmem
        exact Or.inl hmem
  · exact Or.inl (OrderedMap.mem_of_find hfind)

theorem mem_parseSymbol (h : OrderedMap.Sorted symbols) {name : List UInt8} {addr : Int} {e : Symbol × Int}
    (he : e ∈ parseSymbol symbols name addr) : e ∈ symbols ∨ e.2 = addr := by
  unfold parseSymbol at he
  split at he
  · split at he
    · split at he
      · exact Or.inl he
      · split at he
        · exact mem_insertSymbol h he
        · split at he
          · exact mem_insertSymbol h he
          · simp only at he
            split at he
            · rcases mem_insertSymbol (OrderedMap.sorted_insert h _ _) he with he | he
              · exact mem_insertSymbol h he
              · exact Or.inr he
            · exact mem_insertSymbol h he
    · exact mem_insertSymbol h he
  · exact mem_insertSymbol h he

/-- Addresses of functions are 64-bit numbers. -/
theorem build_lt {e : Symbol × Int} (he : e ∈ elf.build) : e.2 < 2 ^ 63 := by
  have hfold : ∀ (dynsyms : List (List UInt8 × Elf64_Sym)) (symbols : Symbols), OrderedMap.Sorted symbols →
      (∀ e ∈ symbols, e.2 < 2 ^ 63) → ∀ e ∈ dynsyms.foldl (fun symbols entry =>
        if entry.2.st_info &&& 0xf = STT_FUNC then
          parseSymbol symbols entry.1 (Bytes.signed64 (elf.base + entry.2.st_value))
        else symbols) symbols, e.2 < 2 ^ 63 := by
    intro dynsyms
    induction dynsyms with
    | nil => exact fun _ _ hlt => hlt
    | cons entry dynsyms ih =>
        intro symbols h hlt
        rw [List.foldl_cons]
        split
        · refine ih _ (parseSymbol_sorted h _ _) fun e he => ?_
          rcases mem_parseSymbol h he with he | he
          · exact hlt e he
          · rw [he]
            unfold Bytes.signed64
            omega
        · exact ih _ h hlt
  exact hfold elf.dynsyms [] List.Pairwise.nil (List.forall_mem_nil _) e he

theorem Clear.bounds (h : Clear elf pre q) {sig : Nat} {addr : Int} (hr : Resolves elf.exported q.name sig addr) :
    addr = INTPTR_MIN ∨ 0 ≤ addr ∧ addr < 2 ^ 63 := by
  rcases hr with ⟨s, hs⟩ | ⟨-, rfl⟩
  · exact Or.inr ⟨h.nonneg _ (mem_symbolsOf.mpr ⟨hs.mem, rfl⟩), build_lt hs.mem⟩
  · exact Or.inl rfl

/-- What was kept is given back. -/
theorem kept_back {addr : Int} (h : addr = INTPTR_MIN ∨ 0 ≤ addr ∧ addr < 2 ^ 63) :
    (if kept addr = INTPTR_MIN then kept addr else if kept addr < 0 then -kept addr else kept addr) = addr := by
  unfold kept INTPTR_MIN at *
  split <;> split <;> omega

theorem kept_natAbs {addr : Int} (h : addr = INTPTR_MIN ∨ 0 ≤ addr ∧ addr < 2 ^ 63) (hne : kept addr ≠ INTPTR_MIN) :
    ((kept addr).natAbs : Int) = addr ∧ addr ≠ INTPTR_MIN := by
  unfold kept INTPTR_MIN at *
  by_cases hpos : addr > 0
  · rw [if_pos hpos] at hne ⊢
    omega
  · rw [if_neg hpos] at hne ⊢
    omega

/-! ### One lookup -/

/-- Where the symbol is not found, the search gives the nearest one. -/
theorem CacheOk.search (hM : CacheOk elf pre symbols) (h : Clear elf pre q)
    (hfind : OrderedMap.find symbols q = none) :
    Resolves elf.exported q.name q.sig (optimalCoercion symbols q.name q.sig) := by
  have hbuild : OrderedMap.find elf.build q = none := by
    cases hb : OrderedMap.find elf.build q with
    | none => rfl
    | some addr =>
        rw [hM.built q addr hb] at hfind
        cases hfind
  have hnew : q ∉ pre := by
    intro hmem
    obtain ⟨addr, -, hkept⟩ := hM.derived q hmem hbuild
    rw [hfind] at hkept
    cases hkept
  have hexact : ∀ {addr}, (q, addr) ∉ elf.exported := by
    intro addr hmem
    have hb := (build_sorted elf).find_iff.mpr ((h.mem_build rfl).mpr hmem)
    rw [hbuild] at hb
    cases hb
  -- an exported symbol of the name is a candidate if it is coercible
  have hcand : ∀ s addr, (⟨q.name, s⟩, addr) ∈ elf.exported → 0 ≤ coercible q.sig s →
      ((⟨q.name, s⟩, addr) : Symbol × Int) ∈ symbolsOf symbols q.name ∧ Candidate q.sig (⟨q.name, s⟩, addr) := by
    intro s addr hmem hcoerces
    have hin := (build_sorted elf).find_iff.mpr ((h.mem_build (p := ⟨q.name, s⟩) rfl).mpr hmem)
    have hpos := h.nonneg _ (mem_symbolsOf.mpr ⟨hmem, rfl⟩)
    refine ⟨mem_symbolsOf.mpr ⟨OrderedMap.mem_of_find (hM.built _ _ hin), rfl⟩, hcoerces, ?_⟩
    unfold INTPTR_MIN
    simp only at hpos ⊢
    omega
  -- and so is the result of an earlier lookup
  have hearlier : ∀ p ∈ pre, p.name = q.name → Resolved elf p → 0 ≤ coercible q.sig p.sig →
      ∃ addr, (p, addr) ∈ symbolsOf symbols q.name ∧ Candidate q.sig (p, addr) := by
    rintro p hp hname ⟨addr, hne, hr⟩ hcoerces
    cases hb : OrderedMap.find elf.build p with
    | some addr' =>
        have hmem := (h.mem_build hname).mp (OrderedMap.mem_of_find hb)
        obtain ⟨n, s⟩ := p
        cases hname
        exact ⟨addr', hcand s addr' hmem hcoerces⟩
    | none =>
        obtain ⟨addr', hr', hkept⟩ := hM.derived p hp hb
        obtain rfl := Resolves.unique (build_sorted elf.defined) hr' hr
        refine ⟨kept addr', mem_symbolsOf.mpr ⟨OrderedMap.mem_of_find hkept, hname⟩, hcoerces, ?_⟩
        rw [hname] at hr
        have hbounds := h.bounds hr
        unfold kept
        unfold INTPTR_MIN at hne hbounds ⊢
        simp only
        split <;> omega
  unfold optimalCoercion
  rcases search_spec q.sig (symbolsOf_ascending hM.sorted q.name) with
    ⟨⟨⟨n, s⟩, v⟩, hmem, hwin, hfold, hleast⟩ | ⟨hnone, hfold⟩
  · rw [hfold]
    obtain ⟨hmem, hname⟩ := mem_symbolsOf.mp hmem
    cases hname
    have hfound := hM.sorted.find_iff.mpr hmem
    have hs : s ≠ q.sig := by
      rintro rfl
      rw [hfind] at hfound
      cases hfound
    have hbefore : ∀ s' addr', ((⟨q.name, s'⟩, addr') : Symbol × Int) ∈ symbolsOf symbols q.name →
        Candidate q.sig (⟨q.name, s'⟩, addr') → Before q.sig s s' := by
      intro s' addr' hmem' hcand'
      have hs' : s' ≠ q.sig := by
        rintro rfl
        have hfound' := hM.sorted.find_iff.mpr (mem_symbolsOf.mp hmem').1
        rw [hfind] at hfound'
        cases hfound'
      exact Or.inr ⟨hs', hleast _ hmem' hcand'⟩
    cases hb : OrderedMap.find elf.build ⟨q.name, s⟩ with
    | some addr =>
        have hsame := hM.built _ _ hb
        rw [hfound] at hsame
        obtain rfl := Option.some.inj hsame
        have hexported := (h.mem_build (p := ⟨q.name, s⟩) rfl).mp (OrderedMap.mem_of_find hb)
        have hpos := h.nonneg _ (mem_symbolsOf.mpr ⟨hexported, rfl⟩)
        refine Or.inl ⟨s, ?_, hwin.1, fun s' addr' hmem' hcoerces' => ?_⟩
        · simp only at hpos ⊢
          rw [Int.natAbs_of_nonneg hpos]
          exact hexported
        · obtain ⟨hmem', hcand'⟩ := hcand s' addr' hmem' hcoerces'
          exact hbefore s' addr' hmem' hcand'
    | none =>
        by_cases hpre : (⟨q.name, s⟩ : Symbol) ∈ pre
        · obtain ⟨addr, hr, hkept⟩ := hM.derived _ hpre hb
          rw [hfound] at hkept
          have hv : v = kept addr := Option.some.inj hkept
          have hwin' := hwin.2
          simp only at hwin'
          rw [hv] at hwin' ⊢
          obtain ⟨habs, hne⟩ := kept_natAbs (h.bounds hr) hwin'
          simp only
          rw [habs]
          refine h.undisturbed hnew ⟨q.name, s⟩ ⟨hpre, rfl, ?_, ⟨addr, hne, hr⟩, hwin.1, ?_, ?_⟩ addr hr
          · intro addr' hmem'
            have hb' := (build_sorted elf).find_iff.mpr ((h.mem_build (p := ⟨q.name, s⟩) rfl).mpr hmem')
            rw [hb] at hb'
            cases hb'
          · intro s' addr' hmem' hcoerces'
            obtain ⟨hmem', hcand'⟩ := hcand s' addr' hmem' hcoerces'
            exact hbefore s' addr' hmem' hcand'
          · rintro ⟨n', s'⟩ hp' hname' hres' hcoerces'
            cases hname'
            obtain ⟨addr', hmem', hcand'⟩ := hearlier _ hp' rfl hres' hcoerces'
            exact hbefore s' addr' hmem' hcand'
        · rw [hM.other _ hpre hb] at hfound
          cases hfound
  · rw [hfold]
    refine Or.inr ⟨fun s addr hmem => ?_, rfl⟩
    by_contra hcoerces
    obtain ⟨hmem, hc⟩ := hcand s addr hmem (Int.not_lt.mp hcoerces)
    exact hnone _ hmem hc

/-- A lookup gives the nearest symbol, and leaves a cache that is right. -/
theorem CacheOk.step (hM : CacheOk elf pre (elf.table symbols)) (h : Clear elf pre q) :
    Resolves elf.exported q.name q.sig (lookupSymbol elf symbols q.name q.sig).1 ∧
      CacheOk elf (pre ++ [q]) (elf.table (lookupSymbol elf symbols q.name q.sig).2) := by
  have htable : (if symbols.length = 0 then elf.build else symbols) = elf.table symbols := rfl
  unfold lookupSymbol
  simp only [htable]
  cases hfind : OrderedMap.find (elf.table symbols) q with
  | some v =>
      have hne : (elf.table symbols).length ≠ 0 := fun hlen => by
        rw [List.eq_nil_of_length_eq_zero hlen] at hfind
        cases hfind
      simp only
      have hsame : elf.table (elf.table symbols) = elf.table symbols := if_neg hne
      rw [hsame]
      have hkeep : ∀ p, p ∈ pre ++ [q] → p ∈ pre ∨ p = q := by
        intro p hp
        simpa using hp
      cases hb : OrderedMap.find elf.build q with
      | some addr =>
          have hv := hM.built q addr hb
          rw [hfind] at hv
          obtain rfl := Option.some.inj hv
          have hexported := (h.mem_build rfl).mp (OrderedMap.mem_of_find hb)
          have hpos := h.nonneg _ (mem_symbolsOf.mpr ⟨hexported, rfl⟩)
          refine ⟨?_, hM.sorted, hM.built, fun p hp hnone => ?_, fun p hp => hM.other p fun hin => hp (by simp [hin])⟩
          · rw [if_neg (by unfold INTPTR_MIN; omega), if_neg (by omega)]
            exact resolves_exact hexported
          · rcases hkeep p hp with hp | rfl
            · exact hM.derived p hp hnone
            · rw [hb] at hnone
              cases hnone
      | none =>
          have hpre : q ∈ pre := by
            by_contra hpre
            rw [hM.other q hpre hb] at hfind
            cases hfind
          obtain ⟨addr, hr, hkept⟩ := hM.derived q hpre hb
          rw [hfind] at hkept
          rw [Option.some.inj hkept, kept_back (h.bounds hr)]
          refine ⟨hr, hM.sorted, hM.built, fun p hp hnone => ?_, fun p hp => hM.other p fun hin => hp (by simp [hin])⟩
          rcases hkeep p hp with hp | rfl
          · exact hM.derived p hp hnone
          · exact hM.derived _ hpre hnone
  | none =>
      have hr := hM.search h hfind
      have hb : OrderedMap.find elf.build q = none := by
        cases hb : OrderedMap.find elf.build q with
        | none => rfl
        | some addr =>
            rw [hM.built q addr hb] at hfind
            cases hfind
      have hfind' : OrderedMap.find (elf.table symbols) ⟨q.name, q.sig⟩ = none := hfind
      have hself : ∀ v, OrderedMap.find (insertSymbol (elf.table symbols) q.name q.sig v) q = some v := by
        intro v
        unfold insertSymbol
        rw [OrderedMap.find_insert hM.sorted, hfind', if_pos rfl]
        rfl
      have hother : ∀ v p, p ≠ q → OrderedMap.find (insertSymbol (elf.table symbols) q.name q.sig v) p =
          OrderedMap.find (elf.table symbols) p := by
        intro v p hne
        unfold insertSymbol
        rw [OrderedMap.find_insert hM.sorted, if_neg hne]
      have htable' : ∀ v, elf.table (insertSymbol (elf.table symbols) q.name q.sig v) =
          insertSymbol (elf.table symbols) q.name q.sig v := by
        intro v
        refine if_neg fun hlen => ?_
        have hnone := hself v
        rw [List.eq_nil_of_length_eq_zero hlen] at hnone
        cases hnone
      simp only [htable']
      refine ⟨hr, OrderedMap.sorted_insert hM.sorted _ _, fun p addr hp => ?_, fun p hp hnone => ?_, fun p hp hnone => ?_⟩
      · rw [hother _ _ (fun heq => by rw [heq, hb] at hp; cases hp)]
        exact hM.built p addr hp
      · by_cases heq : p = q
        · rw [heq]
          exact ⟨_, hr, hself _⟩
        · rw [hother _ _ heq]
          have hpre : p ∈ pre := by simpa [heq] using hp
          exact hM.derived p hpre hnone
      · rw [hother _ _ (fun heq => hp (by simp [heq]))]
        exact hM.other p (fun hin => hp (by simp [hin])) hnone

/-- In a run of clear lookups every one gives the nearest symbol. -/
theorem lookups_right {qs : List Symbol} (h : ∀ pre q post, qs = pre ++ q :: post → Clear elf pre q) :
    ∀ pre q post, qs = pre ++ q :: post → Resolves elf.exported q.name q.sig (elf.answer pre q) := by
  have hcache : ∀ pre post, qs = pre ++ post → CacheOk elf pre (elf.table (elf.after pre)) := by
    intro pre
    induction pre using List.reverseRecOn with
    | nil =>
        intro post _
        exact ⟨build_sorted elf, fun _ _ hb => hb, List.forall_mem_nil _, fun _ _ hb => hb⟩
    | append_singleton pre q ih =>
        intro post heq
        have heq' : qs = pre ++ q :: post := by rw [heq, List.append_assoc, List.singleton_append]
        have hafter : elf.after (pre ++ [q]) = (lookupSymbol elf (elf.after pre) q.name q.sig).2 := by
          unfold Exports.after
          rw [List.foldl_append]
          rfl
        rw [hafter]
        exact ((ih _ heq').step (h pre q post heq')).2
  intro pre q post heq
  exact ((hcache pre (q :: post) heq).step (h pre q post heq)).1

end

/-- `f(void *)` and `f(const void *)`. -/
def voidFunctions : Exports :=
  ⟨0, [(Numerals.ascii "_Z1fPKv", ⟨2, 1, 0x200⟩), (Numerals.ascii "_Z1fPv", ⟨2, 1, 0x100⟩)]⟩

/-- A call of `f` with one argument. -/
def callF (t : Nat) : Symbol := ⟨Numerals.ascii "f", setType TYPESIG_EMPTY t 0⟩

theorem voidFunctions_exported : voidFunctions.exported =
    [(callF (TYPE_VOID ||| TYPE_PTR), 0x100), (callF (TYPE_CONST ||| TYPE_VOID ||| TYPE_PTR), 0x200)] := by
  decide

theorem voidFunctions_clear (pre : List Symbol) {q : Symbol} (hname : q.name = Numerals.ascii "f")
    (hpre : ∀ p ∈ pre, coercible q.sig p.sig < 0) : Clear voidFunctions pre q := by
  refine ⟨?_, ?_, fun _ p hp => ?_⟩
  · rw [hname]
    decide
  · rw [hname]
    decide
  · have := hpre p hp.earlier
    have := hp.coerces
    omega

/-- A lookup of `f(char *)`, and then one of `f(const char *)`. -/
theorem char_then_const : Resolves voidFunctions.exported (Numerals.ascii "f")
    (callF (TYPE_CONST ||| TYPE_CHAR ||| TYPE_PTR)).sig
    (voidFunctions.answer [callF (TYPE_CHAR ||| TYPE_PTR)] (callF (TYPE_CONST ||| TYPE_CHAR ||| TYPE_PTR))) := by
  refine @lookups_right voidFunctions [callF (TYPE_CHAR ||| TYPE_PTR), callF (TYPE_CONST ||| TYPE_CHAR ||| TYPE_PTR)]
    (fun pre q post heq => ?_) [callF (TYPE_CHAR ||| TYPE_PTR)] (callF (TYPE_CONST ||| TYPE_CHAR ||| TYPE_PTR)) [] rfl
  cases pre with
  | nil =>
      cases heq
      exact voidFunctions_clear [] rfl (List.forall_mem_nil _)
  | cons p pre =>
      cases pre with
      | nil =>
          cases heq
          refine voidFunctions_clear _ rfl fun p hp => ?_
          rw [List.mem_singleton.mp hp]
          decide
      | cons p' pre =>
          have hlen := congrArg List.length heq
          simp at hlen

/-- The other way round, `f(char *)` is the function for constants. -/
theorem const_then_char : ¬∀ (elf : Exports) (pre : List Symbol) (q : Symbol),
    Resolves elf.exported q.name q.sig (elf.answer pre q) := by
  intro h
  have hwrong := h voidFunctions [callF (TYPE_CONST ||| TYPE_CHAR ||| TYPE_PTR)] (callF (TYPE_CHAR ||| TYPE_PTR))
  have hanswer : voidFunctions.answer [callF (TYPE_CONST ||| TYPE_CHAR ||| TYPE_PTR)] (callF (TYPE_CHAR ||| TYPE_PTR)) =
      0x200 := by
    decide
  have hright : Resolves voidFunctions.exported (Numerals.ascii "f") (callF (TYPE_CHAR ||| TYPE_PTR)).sig 0x100 := by
    refine Or.inl ⟨(callF (TYPE_VOID ||| TYPE_PTR)).sig, ?_, by decide, fun s addr hmem _ => ?_⟩
    · rw [voidFunctions_exported]
      exact List.mem_cons_self
    · rw [voidFunctions_exported, List.mem_cons, List.mem_singleton] at hmem
      rcases hmem with hmem | hmem
      · cases hmem
        exact Or.inr ⟨by decide, Or.inr ⟨rfl, Nat.le_refl _⟩⟩
      · cases hmem
        exact Or.inr ⟨by decide, Or.inl (by decide)⟩
  have heq := Resolves.unique (build_sorted voidFunctions.defined) hright (hanswer ▸ hwrong)
  cases heq

end E9Tool
