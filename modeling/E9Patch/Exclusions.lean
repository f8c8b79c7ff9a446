import E9Patch.DisasmLoop
import Mathlib.Data.List.TakeWhile

/-!
Exclusions of `e9tool.cpp`: what the merging of the ranges keeps, what a query of the merged ranges answers,
and what the loop over a section makes of the answers. Merged ranges do not touch, so that the upper bound of
one is in no other.
-/

namespace E9Tool

/-- An address of the range. -/
def Exclude.Has (e : Exclude) (x : Int) : Prop := e.lo ≤ x ∧ x < e.hi

instance (e : Exclude) (x : Int) : Decidable (e.Has x) := inferInstanceAs (Decidable (_ ∧ _))

/-- An address of one of the ranges. -/
def Excluded (es : List Exclude) (x : Int) : Prop := ∃ e ∈ es, e.Has x

instance (es : List Exclude) (x : Int) : Decidable (Excluded es x) := inferInstanceAs (Decidable (∃ e ∈ es, e.Has x))

/-! ### Merging -/

/-- In ascending order, disjoint and not touching, and none of them empty. -/
structure Separated (es : List Exclude) : Prop where
  apart : es.Pairwise fun a b => a.hi < b.lo
  nonempty : ∀ e ∈ es, e.lo < e.hi

theorem Separated.append {as bs : List Exclude} : Separated (as ++ bs) ↔
    Separated as ∧ Separated bs ∧ ∀ a ∈ as, ∀ b ∈ bs, a.hi < b.lo := by
  constructor
  · intro h
    obtain ⟨h1, h2, h3⟩ := List.pairwise_append.mp h.apart
    exact ⟨⟨h1, fun e he => h.nonempty e (List.mem_append_left _ he)⟩,
      ⟨h2, fun e he => h.nonempty e (List.mem_append_right _ he)⟩, h3⟩
  · rintro ⟨h1, h2, h3⟩
    refine ⟨List.pairwise_append.mpr ⟨h1.apart, h2.apart, h3⟩, fun e he => ?_⟩
    rcases List.mem_append.mp he with he | he
    · exact h1.nonempty e he
    · exact h2.nonempty e he

theorem Separated.cons {a : Exclude} {bs : List Exclude} : Separated (a :: bs) ↔
    a.lo < a.hi ∧ (∀ b ∈ bs, a.hi < b.lo) ∧ Separated bs := by
  constructor
  · intro h
    obtain ⟨h1, h2⟩ := List.pairwise_cons.mp h.apart
    exact ⟨h.nonempty a List.mem_cons_self, h1, h2, fun e he => h.nonempty e (List.mem_cons_of_mem _ he)⟩
  · rintro ⟨h1, h2, h3⟩
    refine ⟨List.pairwise_cons.mpr ⟨h2, h3.apart⟩, fun e he => ?_⟩
    rcases List.mem_cons.mp he with rfl | he
    · exact h1
    · exact h3.nonempty e he

theorem excluded_append {as bs : List Exclude} {x : Int} :
    Excluded (as ++ bs) x ↔ Excluded as x ∨ Excluded bs x := by
  simp only [Excluded, List.mem_append, or_and_right, exists_or]

theorem excluded_cons {a : Exclude} {bs : List Exclude} {x : Int} :
    Excluded (a :: bs) x ↔ a.Has x ∨ Excluded bs x := by
  simp only [Excluded, List.mem_cons, or_and_right, exists_or, exists_eq_left]

/-- Ranges that overlap or touch are together one range. -/
theorem has_join {a b : Exclude} (_ha : a.lo < a.hi) (_hb : b.lo < b.hi) (h : a.hi ≥ b.lo ∧ a.lo ≤ b.hi) {x : Int} :
    Exclude.Has ⟨min b.lo a.lo, max b.hi a.hi⟩ x ↔ a.Has x ∨ b.Has x := by
  simp only [Exclude.Has]
  omega

/-- The map of the merging: the entries are ranges under their upper bounds. -/
def Indexed (eidx : List (Int × Exclude)) : Prop :=
  (∀ entry ∈ eidx, entry.1 = entry.2.hi) ∧ Separated (eidx.map Prod.snd)

/-- What is absorbed are the first of the entries from the lower bound on. -/
theorem absorb_spec {eidx : List (Int × Exclude)} (hidx : Indexed eidx) {e : Exclude} (he : e.lo < e.hi)
    (hfrom : ∀ entry ∈ eidx, e.lo ≤ entry.1) :
    (absorb eidx e).1 <:+ eidx ∧ (absorb eidx e).2.lo < (absorb eidx e).2.hi ∧
      (∀ entry ∈ (absorb eidx e).1, (absorb eidx e).2.hi < entry.2.lo) ∧
      (∀ lb, lb < e.lo → (∀ entry ∈ eidx, lb < entry.2.lo) → lb < (absorb eidx e).2.lo) ∧
      ∀ x, Excluded ((absorb eidx e).1.map Prod.snd) x ∨ (absorb eidx e).2.Has x ↔
        Excluded (eidx.map Prod.snd) x ∨ e.Has x := by
  induction eidx generalizing e with
  | nil => exact ⟨List.suffix_rfl, he, fun entry h => (List.not_mem_nil h).elim, fun lb h _ => h, fun x => Iff.rfl⟩
  | cons entry eidx ih =>
      obtain ⟨k, a⟩ := entry
      obtain ⟨hkey, hsep⟩ := hidx
      obtain ⟨ha, hab, hsep'⟩ := Separated.cons.mp hsep
      have hidx' : Indexed eidx := ⟨fun entry h => hkey entry (List.mem_cons_of_mem _ h), hsep'⟩
      have hk : k = a.hi := hkey (k, a) List.mem_cons_self
      have hlow : e.lo ≤ a.hi := hk ▸ hfrom (k, a) List.mem_cons_self
      have hbehind : ∀ entry ∈ eidx, a.hi < entry.2.lo := fun entry h => hab _ (List.mem_map_of_mem h)
      rw [absorb]
      split_ifs with h1 h2
      · obtain ⟨g1, g2, g3, g4, g5⟩ := ih hidx' (e := ⟨min e.lo a.lo, max e.hi a.hi⟩)
          (show min e.lo a.lo < max e.hi a.hi by omega) fun entry h => by
            have := hbehind entry h
            have := hidx'.2.nonempty _ (List.mem_map_of_mem h)
            have : entry.1 = entry.2.hi := hidx'.1 entry h
            show min e.lo a.lo ≤ entry.1
            omega
        refine ⟨g1.trans (List.suffix_cons _ _), g2, g3, fun lb hlb hall => ?_, fun x => ?_⟩
        · have := hall (k, a) List.mem_cons_self
          exact g4 lb (lt_min hlb this) fun entry h => hall entry (List.mem_cons_of_mem _ h)
        · rw [g5, List.map_cons, excluded_cons, has_join ha he h1, or_left_comm, or_assoc]
      · refine ⟨List.suffix_rfl, he, fun entry h => ?_, fun lb h _ => h, fun x => Iff.rfl⟩
        rcases List.mem_cons.mp h with rfl | h
        · exact h2
        · have := hbehind entry h
          have : a.lo > e.hi := h2
          have : a.lo < a.hi := ha
          show e.hi < entry.2.lo
          omega
      · have : ¬(a.hi ≥ e.lo ∧ a.lo ≤ e.hi) := h1
        have : ¬a.lo > e.hi := h2
        omega

/-- The entries from the lower bound on. -/
theorem lower_bound {eidx : List (Int × Exclude)} (hidx : Indexed eidx) (lo : Int) :
    ∀ entry ∈ eidx.dropWhile fun entry => entry.1 < lo, lo ≤ entry.1 := by
  obtain ⟨hkey, hsep⟩ := hidx
  induction eidx with
  | nil => exact fun entry h => (List.not_mem_nil h).elim
  | cons a eidx ih =>
      obtain ⟨ha, hab, hsep'⟩ := Separated.cons.mp hsep
      rw [List.dropWhile_cons]
      split_ifs with h
      · exact ih (fun entry h => hkey entry (List.mem_cons_of_mem _ h)) hsep'
      · intro entry hentry
        have hlo : lo ≤ a.1 := not_lt.mp (of_decide_eq_false (Bool.eq_false_iff.mpr h))
        rcases List.mem_cons.mp hentry with rfl | hmem
        · exact hlo
        · have h1 := hab entry.2 (List.mem_map_of_mem hmem)
          have h2 := hsep'.nonempty entry.2 (List.mem_map_of_mem hmem)
          have h3 := hkey a List.mem_cons_self
          have h4 := hkey entry hentry
          omega

theorem addExclude_spec {eidx : List (Int × Exclude)} (hidx : Indexed eidx) {e : Exclude} (he : e.lo < e.hi) :
    Indexed (addExclude eidx e) ∧
      ∀ x, Excluded ((addExclude eidx e).map Prod.snd) x ↔ Excluded (eidx.map Prod.snd) x ∨ e.Has x := by
  set before := eidx.takeWhile fun entry => entry.1 < e.lo with hbefore
  set rest := eidx.dropWhile fun entry => entry.1 < e.lo with hrest
  have hsplit : before ++ rest = eidx := List.takeWhile_append_dropWhile
  obtain ⟨hkey, hsep⟩ := hidx
  have hfrom := lower_bound ⟨hkey, hsep⟩ e.lo
  rw [← hsplit, List.map_append] at hsep
  obtain ⟨hsep1, hsep2, hsep3⟩ := Separated.append.mp hsep
  have hidx2 : Indexed rest := ⟨fun entry h => hkey entry (hsplit ▸ List.mem_append_right _ h), hsep2⟩
  obtain ⟨g1, g2, g3, g4, g5⟩ := absorb_spec hidx2 he hfrom
  set r := absorb rest e with hr
  have hlow : ∀ entry ∈ before, entry.2.hi < r.2.lo := by
    intro entry hmem
    have htake := List.mem_takeWhile_imp (p := fun entry : Int × Exclude => decide (entry.1 < e.lo)) hmem
    have hlt : entry.1 < e.lo := of_decide_eq_true htake
    have hk : entry.1 = entry.2.hi := hkey entry (hsplit ▸ List.mem_append_left _ hmem)
    exact g4 _ (hk ▸ hlt) fun b hb =>
      hsep3 entry.2 (List.mem_map_of_mem hmem) b.2 (List.mem_map_of_mem hb)
  have hkey1 : ∀ entry ∈ before, entry.1 = entry.2.hi := fun entry h => hkey entry (hsplit ▸ List.mem_append_left _ h)
  have hkey2 : ∀ entry ∈ r.1, entry.1 = entry.2.hi := fun entry h => hidx2.1 entry (g1.subset h)
  have hadd : addExclude eidx e = before ++ (r.2.hi, r.2) :: r.1 := by
    refine OrderedMap.insert_between r.2 (fun entry h => ?_) fun entry h => ?_
    · have := hlow entry h
      have := hkey1 entry h
      show entry.1 < r.2.hi
      omega
    · have := g3 entry h
      have := hkey2 entry h
      show r.2.hi < entry.1
      have := hsep2.nonempty entry.2 (List.mem_map_of_mem (g1.subset h))
      omega
  have hsep' : Separated (r.1.map Prod.snd) :=
    ⟨(hsep2.apart.sublist (g1.sublist.map _)), fun a h => hsep2.nonempty a ((g1.sublist.map _).subset h)⟩
  rw [hadd]
  refine ⟨⟨fun entry h => ?_, ?_⟩, fun x => ?_⟩
  · rcases List.mem_append.mp h with h | h
    · exact hkey1 entry h
    · rcases List.mem_cons.mp h with rfl | h
      · rfl
      · exact hkey2 entry h
  · rw [List.map_append, List.map_cons, Separated.append, Separated.cons]
    refine ⟨hsep1, ⟨g2, fun b hb => ?_, hsep'⟩, fun a ha b hb => ?_⟩
    · obtain ⟨entry, h, rfl⟩ := List.mem_map.mp hb
      exact g3 entry h
    · obtain ⟨entry, h, rfl⟩ := List.mem_map.mp ha
      rcases List.mem_cons.mp hb with rfl | hb
      · exact hlow entry h
      · exact hsep3 _ ha b ((g1.sublist.map _).subset hb)
  · rw [← hsplit, List.map_append, List.map_append, List.map_cons, excluded_append, excluded_append,
      excluded_cons, or_assoc, ← g5 x, or_comm (a := r.2.Has x)]

/-- **The merging.** The ranges are in order, disjoint and do not touch, and have the same addresses. -/
theorem mergeExcludes_spec (es : List Exclude) :
    Separated (mergeExcludes es) ∧ ∀ x, Excluded (mergeExcludes es) x ↔ Excluded es x := by
  have hrun : ∀ (l : List Exclude) (eidx : List (Int × Exclude)), Indexed eidx →
      Indexed ((l.filter fun e => e.lo < e.hi).foldl addExclude eidx) ∧
        ∀ x, Excluded (((l.filter fun e => e.lo < e.hi).foldl addExclude eidx).map Prod.snd) x ↔
          Excluded (eidx.map Prod.snd) x ∨ Excluded l x := by
    intro l
    induction l with
    | nil => exact fun eidx hidx => ⟨hidx, fun x => by simp [Excluded]⟩
    | cons e l ih =>
        intro eidx hidx
        rw [List.filter_cons]
        split_ifs with he
        · obtain ⟨h1, h2⟩ := addExclude_spec hidx (of_decide_eq_true he)
          obtain ⟨g1, g2⟩ := ih _ h1
          exact ⟨g1, fun x => by rw [List.foldl_cons, g2, h2, excluded_cons, or_assoc]⟩
        · obtain ⟨g1, g2⟩ := ih _ hidx
          refine ⟨g1, fun x => ?_⟩
          have hempty : ¬e.Has x := by
            rintro ⟨h1, h2⟩
            exact he (decide_eq_true (h1.trans_lt h2))
          rw [g2, excluded_cons, or_iff_right hempty]
  obtain ⟨h1, h2⟩ := hrun es [] ⟨fun entry h => (List.not_mem_nil h).elim, List.Pairwise.nil,
    fun e h => (List.not_mem_nil h).elim⟩
  exact ⟨h1.2, fun x => (h2 x).trans (or_iff_right fun ⟨e, he, _⟩ => List.not_mem_nil he)⟩

/-! ### Queries -/

theorem Separated.disjoint {es : List Exclude} (h : Separated es) {a b : Exclude} (ha : a ∈ es) (hb : b ∈ es)
    (hne : a ≠ b) : a.hi < b.lo ∨ b.hi < a.lo := by
  let R : Exclude → Exclude → Prop := fun a b => a.hi < b.lo ∨ b.hi < a.lo
  have : Std.Symm R := ⟨fun _ _ => Or.symm⟩
  have hR : es.Pairwise R := h.apart.imp Or.inl
  exact hR.forall ha hb hne

theorem Separated.divides {es : List Exclude} (h : Separated es) (addr : Int) :
    BinarySearch.Divides (Exclude.side addr) es :=
  BinarySearch.divides_side h.apart (fun e he => (h.nonempty e he).le) addr

/-- **The query.** The answer is the distance to the end of the range that has the address. -/
theorem exclude_spec {es : List Exclude} (hes : Separated es) (addr : Int) :
    (∀ e ∈ es, e.Has addr → (exclude es addr : Int) = e.hi - addr) ∧
      (¬Excluded es addr → exclude es addr = 0) := by
  rw [exclude]
  cases hs : BinarySearch.searchList (Exclude.side addr) es with
  | found mid =>
      obtain ⟨a, ha, heq⟩ := BinarySearch.searchList_found hs
      have hmem : a ∈ es := List.mem_of_getElem? ha
      obtain ⟨hlo, hhi⟩ := BinarySearch.side_eq_eq.mp heq
      simp only [ha, Option.map_some, Option.getD_some]
      refine ⟨fun e he hhas => ?_, fun hnone => ?_⟩
      · have hae : a = e := by
          by_contra hne
          obtain ⟨h1, h2⟩ := hhas
          rcases hes.disjoint hmem he hne with h | h
          · omega
          · omega
        rw [← hae]
        omega
      · have : ¬a.Has addr := fun h => hnone ⟨a, hmem, h⟩
        rw [Exclude.Has] at this
        omega
  | missing lo =>
      have hnone := BinarySearch.searchList_none (hes.divides addr) hs
      exact ⟨fun e he hhas => absurd (BinarySearch.side_eq_eq.mpr ⟨hhas.1, hhas.2.le⟩) (hnone e he), fun _ => rfl⟩

/-- The end of a range is in no range. -/
theorem not_excluded_exclude {es : List Exclude} (hes : Separated es) (addr : Int) :
    ¬Excluded es (addr + exclude es addr) := by
  obtain ⟨hin, hout⟩ := exclude_spec hes addr
  by_cases h : Excluded es addr
  · obtain ⟨e, he, hhas⟩ := h
    rw [hin e he hhas]
    rintro ⟨b, hb, hbhas⟩
    have hne : e ≠ b := by
      rintro rfl
      have := hbhas.2
      omega
    obtain ⟨h1, h2⟩ := hbhas
    have := hes.nonempty e he
    rcases hes.disjoint he hb hne with h | h
    · omega
    · omega
  · rw [hout h]
    simpa using h

/-! ### The loop -/

section
variable {S : Settings} {shdr : Section}

def Settings.excluding (S : Settings) (es : List Exclude) : Settings := { S with excludes := mergeExcludes es }

/-- With a list, the second skip of a round leads out of the excluded ranges, and there is none behind a range
that the loop has come into. Nothing is collected if everything is taken for data. -/
def Settings.Clear (S : Settings) (s : Cursor) : Prop :=
  ∀ disasm, S.disasm = some disasm →
    (S.option_threshold = 0 ∨ ¬Excluded S.excludes (s.address + exclude S.excludes s.address +
      nextInstr disasm (s.address + exclude S.excludes s.address))) ∧
    (Excluded S.excludes s.address → nextInstr disasm (s.address + exclude S.excludes s.address) = 0)

/-- No instruction that was collected is excluded, and a round that starts in a range decodes what is at its
upper bound. -/
structure Honoured (S : Settings) (shdr : Section) (start t : Cursor) : Prop where
  outside : ∀ I ∈ t.Is, ¬Excluded S.excludes I.address
  resumes : ∀ s u I, Visits S shdr start s → disasmRound S shdr s = .ok (some (I, u)) →
    ∀ e ∈ S.excludes, e.Has s.address → I.address = e.hi

theorem skip_none (h : S.disasm = none) (addr : Int) : S.skip addr = exclude S.excludes addr := by
  rw [Settings.skip, h]

theorem skip_some {disasm : List Int} (h : S.disasm = some disasm) (addr : Int) :
    S.skip addr = exclude S.excludes addr + nextInstr disasm (addr + exclude S.excludes addr) := by
  rw [Settings.skip, h]

/-- With a list and a threshold, every round collects what it has decoded. -/
theorem disasmRound_collects {s t : Cursor} {I : Instr} (hlist : S.disasm.isSome) (hpos : 0 < S.option_threshold)
    (hsync : 0 ≤ s.sync) (h : disasmRound S shdr s = .ok (some (I, t))) :
    0 ≤ t.sync ∧ ∃ sus, t.Is = { I with sus := sus } :: s.Is := by
  obtain ⟨u, hd, hcases⟩ := disasmRound_cases h
  obtain ⟨-, -, -, -, hu⟩ := decode_some hd
  have hu1 : 0 ≤ u.sync := by
    rw [hu]
    rcases advance_cases (S := S) s with ⟨-, h⟩ | ⟨-, h⟩
    · rw [h]
      exact hsync
    · rw [h]
  have hu2 : u.Is = s.Is := by
    rw [hu]
    exact advance_Is s
  rcases hcases with ⟨-, -, h0⟩ | ⟨-, ⟨sus, rfl⟩, -⟩
  · have := h0 hlist
    omega
  · rcases accept_cases (S := S) { I with sus := sus } u with ⟨-, h⟩ | ⟨hneg, -⟩
    · rw [h, ← hu2]
      exact ⟨Int.le_add_one hu1, sus, rfl⟩
    · omega

theorem Finishes.collects {s t : Cursor} (hlist : S.disasm.isSome) (hpos : 0 < S.option_threshold)
    (hsync : 0 ≤ s.sync) (h : Finishes S shdr s t) : ∀ I ∈ s.Is, I ∈ t.Is := by
  obtain ⟨u, -, ⟨-, hIs⟩, -, rfl⟩ := h.invariant (P := fun u => 0 ≤ u.sync ∧ ∀ I ∈ s.Is, I ∈ u.Is)
    (fun u v I _ hu hround => by
      obtain ⟨h1, sus, h2⟩ := disasmRound_collects hlist hpos hu.1 hround
      rw [h2]
      exact ⟨h1, fun J hJ => List.mem_cons_of_mem _ (hu.2 J hJ)⟩) ⟨hsync, fun I hI => hI⟩
  rwa [advance_Is]

/-- What is collected after a round was collected before, or is what the round has decoded. -/
theorem mem_disasmRound {s t : Cursor} {I J : Instr} (h : disasmRound S shdr s = .ok (some (I, t))) (hJ : J ∈ t.Is) :
    J ∈ s.Is ∨ J.address = I.address ∧ (S.disasm.isSome → 0 < S.option_threshold) := by
  obtain ⟨u, hd, hcases⟩ := disasmRound_cases h
  obtain ⟨-, -, -, -, hu⟩ := decode_some hd
  have hIs : u.Is = s.Is := by
    rw [hu]
    exact advance_Is s
  rcases hcases with ⟨-, ⟨byte, rfl⟩, -⟩ | ⟨-, ⟨sus, rfl⟩, hpos⟩
  · exact Or.inl (hIs ▸ (discard_suffix _ _ _ _).subset hJ)
  · rcases accept_cases (S := S) { I with sus := sus } u with ⟨-, h⟩ | ⟨-, h⟩
    · rw [h] at hJ
      rcases List.mem_cons.mp hJ with rfl | hJ
      · exact Or.inr ⟨rfl, hpos⟩
      · exact Or.inl (hIs ▸ hJ)
    · rw [h] at hJ
      exact Or.inl (hIs ▸ hJ)

theorem honoured_iff (hes : Separated S.excludes) {Is : List Instr} {desyncs : List Desync} {t : Cursor}
    (hIs : ∀ I ∈ Is, ¬Excluded S.excludes I.address) (h : Finishes S shdr (shdr.start Is desyncs) t) :
    Honoured S shdr (shdr.start Is desyncs) t ↔ ∀ s u I, Visits S shdr (shdr.start Is desyncs) s →
      disasmRound S shdr s = .ok (some (I, u)) → S.Clear s := by
  constructor
  · intro hon s u I hs hround disasm hdisasm
    obtain ⟨haddr, -⟩ := disasmRound_moves hround
    rw [skip_some hdisasm, Int.natCast_add, ← Int.add_assoc] at haddr
    constructor
    · rcases Nat.eq_zero_or_pos S.option_threshold with h0 | hpos
      · exact Or.inl h0
      · have hlist : S.disasm.isSome := by rw [hdisasm]; rfl
        have hsync : 0 ≤ s.sync := by
          clear haddr hround
          induction hs with
          | refl => exact le_rfl
          | tail _ hround ih =>
              obtain ⟨J, hround⟩ := hround
              exact (disasmRound_collects hlist hpos ih hround).1
        obtain ⟨hsync', sus, hcollects⟩ := disasmRound_collects hlist hpos hsync hround
        have hmem := ((h.visits hs).next ⟨I, hround⟩).collects hlist hpos hsync' { I with sus := sus }
          (hcollects ▸ List.mem_cons_self)
        rw [← haddr]
        exact Or.inr (hon.outside { I with sus := sus } hmem)
    · rintro ⟨e, he, hhas⟩
      have hhi := hon.resumes s u I hs hround e he hhas
      rw [haddr, (exclude_spec hes s.address).1 e he hhas] at hhi
      rw [(exclude_spec hes s.address).1 e he hhas]
      omega
  · intro hclear
    have haddr : ∀ s u I, Visits S shdr (shdr.start Is desyncs) s → disasmRound S shdr s = .ok (some (I, u)) →
        ((S.disasm.isSome → 0 < S.option_threshold) → ¬Excluded S.excludes I.address) ∧
          (Excluded S.excludes s.address → I.address = s.address + exclude S.excludes s.address) := by
      intro s u I hs hround
      obtain ⟨hmoved, -⟩ := disasmRound_moves hround
      cases hdisasm : S.disasm with
      | none =>
          rw [skip_none hdisasm] at hmoved
          rw [hmoved]
          exact ⟨fun _ => not_excluded_exclude hes _, fun _ => rfl⟩
      | some disasm =>
          obtain ⟨h1, h2⟩ := hclear s u I hs hround disasm hdisasm
          rw [skip_some hdisasm, Int.natCast_add, ← Int.add_assoc] at hmoved
          rw [hmoved]
          refine ⟨fun hpos => h1.resolve_left (hpos rfl).ne', fun hin => ?_⟩
          rw [h2 hin]
          omega
    constructor
    · obtain ⟨u, -, houtside, -, rfl⟩ := h.invariant (P := fun u => ∀ I ∈ u.Is, ¬Excluded S.excludes I.address)
        (fun u v I hu hP hround J hJ => by
          rcases mem_disasmRound hround hJ with hJ | ⟨hJ, hpos⟩
          · exact hP J hJ
          · rw [hJ]
            exact (haddr u v I hu hround).1 hpos) hIs
      rwa [advance_Is]
    · intro s u I hs hround e he hhas
      rw [(haddr s u I hs hround).2 ⟨e, he, hhas⟩, (exclude_spec hes s.address).1 e he hhas]
      omega

/-- If in every round of every section the second skip is clear, nothing that is excluded is left of all sections. -/
theorem disassemble_outside (hes : Separated S.excludes) {option_plt : Bool} {exes : List Section}
    {r : List Instr × List Desync} (h : disassemble S option_plt exes = .ok r)
    (hclear : ∀ shdr ∈ exes, ∀ Is desyncs s u I, Visits S shdr (shdr.start Is desyncs) s →
      disasmRound S shdr s = .ok (some (I, u)) → S.Clear s) :
    ∀ I ∈ r.1, ¬Excluded S.excludes I.address := by
  let Outside : List Instr × List Desync → Prop := fun r => ∀ I ∈ r.1, ¬Excluded S.excludes I.address
  refine Fallible.foldlM_rel (R := fun r r' => Outside r → Outside r') (fun _ hr => hr) (fun h1 h2 hr => h2 (h1 hr)) ?_ h
    fun I hI => (List.not_mem_nil hI).elim
  intro shdr hshdr r r' hstep hr
  split_ifs at hstep
  · obtain rfl := Except.ok.inj hstep
    exact hr
  · obtain ⟨t, ht, rfl⟩ := Fallible.map_ok.mp hstep
    exact ((honoured_iff hes hr (disasmSection_finishes ht)).mpr (hclear shdr hshdr r.1 r.2)).outside

end

/-- A decoder of one-byte instructions. -/
def nopDecoder : Decoder where
  length bytes := if bytes.head? = some 0x90 then some 1 else none
  length_pos := by
    intro bytes n h
    split_ifs at h
    injection h with h
    omega
  length_le := by
    intro bytes n h
    split_ifs at h with hb
    injection h with h
    cases bytes with
    | nil => cases hb
    | cons b bytes => exact h ▸ Nat.le_add_left _ _

/-- A list with an instruction in an excluded range. -/
def listedInside : Settings := ⟨nopDecoder, [], some [0x15], 64, 2⟩

/-- A section of `nop` instructions. -/
def nopSection : Section := ⟨".text", 0, 0, List.replicate 24 0x90⟩

/-- One instruction of a section before it. -/
def beforeSection : List Instr := [⟨-8, 1, 0, false, false, true⟩]

end E9Tool
