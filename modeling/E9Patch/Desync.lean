import E9Patch.Exclusions

/-!
What the disassembly throws away. A byte of data takes the instructions before it with it, and the interval
from the first of them on is reported; but where it joins the interval before, only the end of that one is
moved. So what is taken from before an interval is in none.
-/

namespace E9Tool

variable {S : Settings} {shdr : Section}

/-! ### Order -/

/-- What was collected and what was reported are apart and in order, up to the cursor. Close behind data the
last interval goes up to the cursor. -/
structure Ordered (s : Cursor) : Prop where
  sorted : s.Is.Pairwise fun J K : Instr => K.address + (K.size : Int) ≤ J.address
  pos : ∀ J ∈ s.Is, 0 < J.size
  below : ∀ J ∈ s.Is, J.address + J.size ≤ s.address
  intervals : s.desyncs.Pairwise fun d e => e.hi < d.lo
  nonempty : ∀ d ∈ s.desyncs, d.lo < d.hi ∧ d.hi ≤ s.address
  apart : ∀ J ∈ s.Is, ∀ d ∈ s.desyncs, J.address + J.size ≤ d.lo ∨ d.hi ≤ J.address
  near : s.sync < 0 → ∃ d ds, s.desyncs = d :: ds ∧ d.hi = s.address

/-- What is discarded are the last instructions; `lo` ends between them and those that are left. -/
theorem discard_spec (n i : Nat) (lo : Int) {Is : List Instr}
    (hsorted : Is.Pairwise fun J K : Instr => K.address + (K.size : Int) ≤ J.address) (hbelow : ∀ J ∈ Is, J.address + J.size ≤ lo) :
    (discard n i lo Is).1 ≤ lo ∧ (∀ J ∈ (discard n i lo Is).2, J.address + J.size ≤ (discard n i lo Is).1) ∧
      (∀ J ∈ Is, J ∈ (discard n i lo Is).2 ∨ (discard n i lo Is).1 ≤ J.address) ∧
      ((discard n i lo Is).1 = lo ∨ ∃ J ∈ Is, J.address = (discard n i lo Is).1) := by
  induction Is generalizing i lo with
  | nil => exact ⟨le_rfl, hbelow, fun J hJ => (List.not_mem_nil hJ).elim, Or.inl rfl⟩
  | cons J Is ih =>
      obtain ⟨hJ, hsorted⟩ := List.pairwise_cons.mp hsorted
      have hlo : J.address ≤ lo := by
        have := hbelow J List.mem_cons_self
        omega
      have hnext : ∀ i, (discard n i J.address Is).1 ≤ lo ∧
          (∀ K ∈ (discard n i J.address Is).2, K.address + K.size ≤ (discard n i J.address Is).1) ∧
          (∀ K ∈ J :: Is, K ∈ (discard n i J.address Is).2 ∨ (discard n i J.address Is).1 ≤ K.address) ∧
          ((discard n i J.address Is).1 = lo ∨ ∃ K ∈ J :: Is, K.address = (discard n i J.address Is).1) := by
        intro i
        obtain ⟨h1, h2, h3, h4⟩ := ih i J.address hsorted hJ
        refine ⟨h1.trans hlo, h2, fun K hK => ?_, Or.inr ?_⟩
        · rcases List.mem_cons.mp hK with rfl | hK
          · exact Or.inr h1
          · exact h3 K hK
        · rcases h4 with h4 | ⟨K, hK, h4⟩
          · exact ⟨J, List.mem_cons_self, h4.symm⟩
          · exact ⟨K, List.mem_cons_of_mem _ hK, h4⟩
      rw [discard]
      split_ifs with h1 h2 h3
      · refine ⟨hlo, hJ, fun K hK => ?_, Or.inr ⟨J, List.mem_cons_self, rfl⟩⟩
        rcases List.mem_cons.mp hK with rfl | hK
        · exact Or.inr le_rfl
        · exact Or.inl hK
      · exact hnext _
      · exact hnext _
      · exact ⟨le_rfl, hbelow, fun K hK => Or.inl hK, Or.inl rfl⟩

/-- A skip keeps the order. -/
theorem Ordered.advance {s : Cursor} (h : Ordered s) : Ordered (s.advance S) := by
  rcases advance_cases (S := S) s with ⟨-, heq⟩ | ⟨hpos, heq⟩
  · rwa [heq]
  · rw [heq]
    refine ⟨h.sorted, h.pos, fun J hJ => ?_, h.intervals, fun d hd => ⟨(h.nonempty d hd).1, ?_⟩, h.apart,
      fun hneg => absurd hneg (lt_irrefl _)⟩
    · have := h.below J hJ
      show J.address + J.size ≤ s.address + S.skip s.address
      omega
    · have := (h.nonempty d hd).2
      show d.hi ≤ s.address + S.skip s.address
      omega

/-- What a round does in terms of the cursor that it has advanced: take the instruction for data, and report an
interval of its own or the end of the last one; or for code, and collect it, or move the end of the last one. -/
inductive Outcome (S : Settings) (shdr : Section) (s : Cursor) (I : Instr) (t : Cursor) : Prop where
  | opened (lo : Int) (Is : List Instr) (byte : UInt8) (hdata : s.isData S shdr I = true)
      (hdis : discard S.option_sync 0 I.address s.Is = (lo, Is)) (hfirst : ∀ d ∈ s.desyncs.head?, d.hi < lo)
      (hIs : t.Is = Is) (hds : t.desyncs = ⟨lo, I.address + I.size, I.address, byte⟩ :: s.desyncs)
  | joined (lo : Int) (Is : List Instr) (d : Desync) (ds : List Desync) (hdata : s.isData S shdr I = true)
      (hdis : discard S.option_sync 0 I.address s.Is = (lo, Is)) (hlast : s.desyncs = d :: ds) (hle : lo ≤ d.hi)
      (hIs : t.Is = Is) (hds : t.desyncs = { d with hi := I.address + I.size } :: ds)
  | collected (sus : Bool) (hdata : s.isData S shdr I = false) (hIs : t.Is = { I with sus := sus } :: s.Is)
      (hds : t.desyncs = s.desyncs) (hsync : 0 ≤ t.sync)
  | skipped (d : Desync) (ds : List Desync) (hdata : s.isData S shdr I = false) (hneg : s.sync < 0)
      (hlast : s.desyncs = d :: ds) (hIs : t.Is = s.Is) (hds : t.desyncs = { d with hi := I.address + I.size } :: ds)

theorem disasmRound_outcome {s t : Cursor} {I : Instr} (hs : Ordered s)
    (h : disasmRound S shdr s = .ok (some (I, t))) :
    I.address = (s.advance S).address ∧ 0 < I.size ∧ t.address = I.address + I.size ∧
      Outcome S shdr (s.advance S) I t := by
  have hadv : Ordered (s.advance S) := hs.advance
  obtain ⟨u, hd, hcases⟩ := disasmRound_cases h
  obtain ⟨haddr, -, hpos, -, hu⟩ := decode_some hd
  have hut : t.address = u.address := by
    rcases hcases with ⟨-, ⟨byte, rfl⟩, -⟩ | ⟨-, ⟨sus, rfl⟩, -⟩
    · rfl
    · exact accept_address _ _
  have huaddr : u.address = I.address + I.size := by rw [hu, haddr]
  have huIs : u.Is = (s.advance S).Is := by rw [hu]
  have huds : u.desyncs = (s.advance S).desyncs := by rw [hu]
  have husync : u.sync = (s.advance S).sync := by rw [hu]
  refine ⟨haddr, hpos, hut.trans huaddr, ?_⟩
  rcases hcases with ⟨hdata, ⟨byte, rfl⟩, -⟩ | ⟨hdata, ⟨sus, rfl⟩, -⟩
  · obtain ⟨hle, -⟩ := discard_spec S.option_sync 0 I.address hadv.sorted (haddr ▸ hadv.below)
    obtain ⟨⟨lo, Is⟩, hdis⟩ : ∃ r, discard S.option_sync 0 I.address (s.advance S).Is = r := ⟨_, rfl⟩
    rw [hdis] at hle
    cases hds : (s.advance S).desyncs with
    | nil =>
        have hsync : 0 ≤ (s.advance S).sync := by
          by_contra hneg
          obtain ⟨d, ds, hlast, -⟩ := hadv.near (by omega)
          rw [hds] at hlast
          cases hlast
        refine .opened lo Is byte hdata hdis (fun d hd => ?_) ?_ ?_
        · rw [hds] at hd
          cases hd
        · simp only [desync, huIs, hdis]
        · simp only [desync, huIs, huds, husync, hdis, hds]
          exact if_pos hsync
    | cons d ds =>
        by_cases hjoin : lo ≤ d.hi
        · refine .joined lo Is d ds hdata hdis hds hjoin ?_ ?_
          · simp only [desync, huIs, hdis]
          · simp only [desync, huIs, huds, hdis, hds]
            exact if_pos hjoin
        · have hsync : 0 ≤ (s.advance S).sync := by
            by_contra hneg
            obtain ⟨d', ds', hlast, hhi⟩ := hadv.near (by omega)
            rw [hds] at hlast
            obtain ⟨rfl, rfl⟩ := List.cons.inj hlast
            rw [← haddr] at hhi
            dsimp only at hle
            omega
          refine .opened lo Is byte hdata hdis (fun e he => ?_) ?_ ?_
          · rw [hds] at he
            obtain rfl := Option.some.inj he
            omega
          · simp only [desync, huIs, hdis]
          · simp only [desync, huIs, huds, husync, hdis, hds]
            exact (if_neg hjoin).trans (if_pos hsync)
  · rcases accept_cases (S := S) { I with sus := sus } u with ⟨hge, heq⟩ | ⟨hlt, heq⟩
    · rw [heq]
      refine .collected sus hdata ?_ ?_ hge
      · simp only [huIs]
      · simp only [huds]
    · obtain ⟨d, ds, hlast, -⟩ := hadv.near (by omega)
      rw [heq]
      refine .skipped d ds hdata (by omega) hlast ?_ ?_
      · simp only [huIs]
      · simp only [huds, hlast]

/-- The order of what was collected and reported, after a round. -/
theorem Outcome.ordered {s t : Cursor} {I : Instr} (hs : Ordered s) (haddr : I.address = s.address) (hpos : 0 < I.size)
    (ht : t.address = I.address + I.size) (h : Outcome S shdr s I t) : Ordered t := by
  have hbelow : ∀ J ∈ s.Is, J.address + J.size ≤ I.address := haddr ▸ hs.below
  have hends : ∀ d ∈ s.desyncs, d.lo < d.hi ∧ d.hi ≤ I.address := haddr ▸ hs.nonempty
  cases h with
  | opened lo Is byte hdata hdis hfirst hIs hds =>
      obtain ⟨h1, h2, -, -⟩ := discard_spec S.option_sync 0 _ hs.sorted hbelow
      have hsub := (discard_suffix S.option_sync 0 I.address s.Is).sublist
      rw [hdis] at h1 h2 hsub
      have hbefore : ∀ d ∈ s.desyncs, d.hi < lo := by
        intro d hd
        cases hs' : s.desyncs with
        | nil =>
            rw [hs'] at hd
            cases hd
        | cons e es =>
            have he : e.hi < lo := hfirst e (by rw [hs']; rfl)
            rw [hs'] at hd
            rcases List.mem_cons.mp hd with rfl | hd
            · exact he
            · have hpair := hs.intervals
              rw [hs'] at hpair
              have := (List.pairwise_cons.mp hpair).1 d hd
              have := (hends e (by rw [hs']; exact List.mem_cons_self)).1
              omega
      constructor
      · rw [hIs]
        exact hs.sorted.sublist hsub
      · rw [hIs]
        exact fun J hJ => hs.pos J (hsub.subset hJ)
      · rw [hIs]
        intro J hJ
        have := h2 J hJ
        omega
      · rw [hds]
        exact List.pairwise_cons.mpr ⟨hbefore, hs.intervals⟩
      · rw [hds]
        intro d hd
        rcases List.mem_cons.mp hd with rfl | hd
        · exact ⟨by dsimp only; omega, by dsimp only; omega⟩
        · have := hends d hd
          omega
      · rw [hIs, hds]
        intro J hJ d hd
        rcases List.mem_cons.mp hd with rfl | hd
        · exact Or.inl (h2 J hJ)
        · exact hs.apart J (hsub.subset hJ) d hd
      · exact fun _ => ⟨_, _, hds, ht.symm⟩
  | joined lo Is d ds hdata hdis hlast hle hIs hds =>
      obtain ⟨h1, h2, -, -⟩ := discard_spec S.option_sync 0 _ hs.sorted hbelow
      have hsub := (discard_suffix S.option_sync 0 I.address s.Is).sublist
      rw [hdis] at h1 h2 hsub
      have hintervals := hs.intervals
      rw [hlast] at hends hintervals
      constructor
      · rw [hIs]
        exact hs.sorted.sublist hsub
      · rw [hIs]
        exact fun J hJ => hs.pos J (hsub.subset hJ)
      · rw [hIs]
        intro J hJ
        have := h2 J hJ
        omega
      · rw [hds]
        exact List.pairwise_cons.mpr (List.pairwise_cons.mp hintervals)
      · rw [hds]
        intro e he
        rcases List.mem_cons.mp he with rfl | he
        · have := hends d List.mem_cons_self
          exact ⟨by dsimp only; omega, by dsimp only; omega⟩
        · have := hends e (List.mem_cons_of_mem _ he)
          omega
      · rw [hIs, hds]
        intro J hJ e he
        have hJd := hs.apart J (hsub.subset hJ)
        rw [hlast] at hJd
        rcases List.mem_cons.mp he with rfl | he
        · -- what is left ends before `lo`, so it is not behind the last interval
          have := h2 J hJ
          have := hs.pos J (hsub.subset hJ)
          rcases hJd d List.mem_cons_self with h | h
          · exact Or.inl h
          · dsimp only at *
            omega
        · exact hJd e (List.mem_cons_of_mem _ he)
      · exact fun _ => ⟨_, _, hds, ht.symm⟩
  | collected sus hdata hIs hds hsync =>
      constructor
      · rw [hIs]
        exact List.pairwise_cons.mpr ⟨hbelow, hs.sorted⟩
      · rw [hIs]
        exact List.forall_mem_cons.mpr ⟨hpos, hs.pos⟩
      · rw [hIs]
        refine List.forall_mem_cons.mpr ⟨ht.ge, fun J hJ => ?_⟩
        have := hbelow J hJ
        omega
      · rw [hds]
        exact hs.intervals
      · rw [hds]
        intro d hd
        have := hends d hd
        omega
      · rw [hIs, hds]
        refine List.forall_mem_cons.mpr ⟨fun d hd => Or.inr (hends d hd).2, hs.apart⟩
      · exact fun hneg => absurd hneg (not_lt.mpr hsync)
  | skipped d ds hdata hneg hlast hIs hds =>
      obtain ⟨d', ds', hlast', hhi⟩ := hs.near hneg
      rw [hlast] at hlast'
      obtain ⟨rfl, rfl⟩ := List.cons.inj hlast'
      have hintervals := hs.intervals
      rw [hlast] at hends hintervals
      constructor
      · rw [hIs]
        exact hs.sorted
      · rw [hIs]
        exact hs.pos
      · rw [hIs]
        intro J hJ
        have := hbelow J hJ
        omega
      · rw [hds]
        exact List.pairwise_cons.mpr (List.pairwise_cons.mp hintervals)
      · rw [hds]
        intro e he
        rcases List.mem_cons.mp he with rfl | he
        · have := hends d List.mem_cons_self
          exact ⟨by dsimp only; omega, by dsimp only; omega⟩
        · have := hends e (List.mem_cons_of_mem _ he)
          omega
      · rw [hIs, hds]
        intro J hJ e he
        have hJd := hs.apart J hJ
        rw [hlast] at hJd
        rcases List.mem_cons.mp he with rfl | he
        · have := hbelow J hJ
          have := hs.pos J hJ
          rcases hJd d List.mem_cons_self with h | h
          · exact Or.inl h
          · dsimp only at *
            omega
        · exact hJd e (List.mem_cons_of_mem _ he)
      · exact fun _ => ⟨_, _, hds, ht.symm⟩

theorem Ordered.round {s t : Cursor} {I : Instr} (hs : Ordered s) (h : disasmRound S shdr s = .ok (some (I, t))) :
    Ordered t := by
  obtain ⟨haddr, hpos, ht, hout⟩ := disasmRound_outcome hs h
  exact hout.ordered hs.advance haddr hpos ht

theorem Ordered.visits {s t : Cursor} (hs : Ordered s) (h : Visits S shdr s t) : Ordered t := by
  induction h with
  | refl => exact hs
  | tail _ hround ih =>
      obtain ⟨I, hround⟩ := hround
      exact ih.round hround

/-! ### Instructions that are not dropped -/

/-- The instruction is kept, or is in a reported interval. -/
def Accounted (s : Cursor) (I : Instr) : Prop :=
  (∃ J ∈ s.Is, J.address = I.address ∧ J.size = I.size) ∨
    ∃ d ∈ s.desyncs, d.lo ≤ I.address ∧ I.address + I.size ≤ d.hi

instance (s : Cursor) (I : Instr) : Decidable (Accounted s I) := inferInstanceAs (Decidable (_ ∨ _))

/-- What would be discarded before an instruction at `s` is in part from before the last interval. -/
def ReachesBack (S : Settings) (s : Cursor) : Prop :=
  ∃ d ∈ s.desyncs.head?, (discard S.option_sync 0 s.address s.Is).1 < d.lo

/-- A round accounts for what it has decoded and for what was accounted for, unless it reaches back. -/
theorem Outcome.accounted {s t : Cursor} {I : Instr} (hs : Ordered s) (haddr : I.address = s.address)
    (h : Outcome S shdr s I t) (hback : s.isData S shdr I = true → ¬ReachesBack S s) :
    Accounted t I ∧ ∀ K, Accounted s K → Accounted t K := by
  have hbelow : ∀ J ∈ s.Is, J.address + J.size ≤ I.address := haddr ▸ hs.below
  cases h with
  | opened lo Is byte hdata hdis hfirst hIs hds =>
      obtain ⟨h1, -, h3, -⟩ := discard_spec S.option_sync 0 _ hs.sorted hbelow
      rw [hdis] at h1 h3
      refine ⟨Or.inr ⟨_, hds ▸ List.mem_cons_self, h1, le_rfl⟩, fun K hK => ?_⟩
      rcases hK with ⟨J, hJ, hJK⟩ | ⟨d, hd, hdK⟩
      · rcases h3 J hJ with h | h
        · exact Or.inl ⟨J, hIs ▸ h, hJK⟩
        · have := hbelow J hJ
          refine Or.inr ⟨_, hds ▸ List.mem_cons_self, ?_, ?_⟩
          · rw [← hJK.1]
            exact h
          · rw [← hJK.1, ← hJK.2]
            dsimp only
            omega
      · exact Or.inr ⟨d, hds ▸ List.mem_cons_of_mem _ hd, hdK⟩
  | joined lo Is d ds hdata hdis hlast hle hIs hds =>
      have hnew : ({ d with hi := I.address + I.size } : Desync) ∈ t.desyncs := hds ▸ List.mem_cons_self
      obtain ⟨h1, -, h3, -⟩ := discard_spec S.option_sync 0 _ hs.sorted hbelow
      have hlo : d.lo ≤ lo := by
        by_contra hlt
        refine hback hdata ⟨d, by rw [hlast]; rfl, ?_⟩
        rw [← haddr, hdis]
        exact not_le.mp hlt
      rw [hdis] at h1 h3
      refine ⟨Or.inr ⟨_, hnew, hlo.trans h1, le_rfl⟩, fun K hK => ?_⟩
      rcases hK with ⟨J, hJ, hJK⟩ | ⟨e, he, heK⟩
      · rcases h3 J hJ with h | h
        · exact Or.inl ⟨J, hIs ▸ h, hJK⟩
        · have := hbelow J hJ
          refine Or.inr ⟨_, hnew, ?_, ?_⟩
          · rw [← hJK.1]
            exact hlo.trans h
          · rw [← hJK.1, ← hJK.2]
            dsimp only
            omega
      · have hend := (hs.nonempty e he).2
        rw [hlast] at he
        rcases List.mem_cons.mp he with rfl | he
        · refine Or.inr ⟨_, hnew, heK.1, ?_⟩
          have := heK.2
          dsimp only
          omega
        · exact Or.inr ⟨e, hds ▸ List.mem_cons_of_mem _ he, heK⟩
  | collected sus hdata hIs hds hsync =>
      refine ⟨Or.inl ⟨{ I with sus := sus }, hIs ▸ List.mem_cons_self, rfl, rfl⟩, fun K hK => ?_⟩
      rcases hK with ⟨J, hJ, hJK⟩ | ⟨d, hd, hdK⟩
      · exact Or.inl ⟨J, hIs ▸ List.mem_cons_of_mem _ hJ, hJK⟩
      · exact Or.inr ⟨d, hds ▸ hd, hdK⟩
  | skipped d ds hdata hneg hlast hIs hds =>
      have hnew : ({ d with hi := I.address + I.size } : Desync) ∈ t.desyncs := hds ▸ List.mem_cons_self
      obtain ⟨d', ds', hlast', hhi⟩ := hs.near hneg
      rw [hlast] at hlast'
      obtain ⟨rfl, rfl⟩ := List.cons.inj hlast'
      have hd := hs.nonempty d (hlast ▸ List.mem_cons_self)
      refine ⟨Or.inr ⟨_, hnew, by dsimp only; omega, le_rfl⟩, fun K hK => ?_⟩
      rcases hK with ⟨J, hJ, hJK⟩ | ⟨e, he, heK⟩
      · exact Or.inl ⟨J, hIs ▸ hJ, hJK⟩
      · have hend := (hs.nonempty e he).2
        rw [hlast] at he
        rcases List.mem_cons.mp he with rfl | he
        · refine Or.inr ⟨_, hnew, heK.1, ?_⟩
          have := heK.2
          dsimp only
          omega
        · exact Or.inr ⟨e, hds ▸ List.mem_cons_of_mem _ he, heK⟩

/-- An address that is not kept, in no interval, and before the last of them, stays so. -/
def Lost (s : Cursor) (a : Int) : Prop :=
  (∀ J ∈ s.Is, J.address ≠ a) ∧ (∀ d ∈ s.desyncs, ¬(d.lo ≤ a ∧ a < d.hi)) ∧ ∃ d ∈ s.desyncs.head?, a < d.lo

theorem Outcome.lost {s t : Cursor} {I : Instr} {a : Int} (hs : Ordered s) (haddr : I.address = s.address)
    (h : Outcome S shdr s I t) (hlost : Lost s a) : Lost t a := by
  obtain ⟨h1, h2, e, he, hae⟩ := hlost
  obtain ⟨es, hes⟩ : ∃ es, s.desyncs = e :: es := by
    cases hds : s.desyncs with
    | nil =>
        rw [hds] at he
        cases he
    | cons e' es =>
        rw [hds] at he
        obtain rfl := Option.some.inj he
        exact ⟨es, rfl⟩
  have hemem : e ∈ s.desyncs := hes ▸ List.mem_cons_self
  have hend := hs.nonempty e hemem
  have hsub := (discard_suffix S.option_sync 0 I.address s.Is).subset
  cases h with
  | opened lo Is byte hdata hdis hfirst hIs hds =>
      have hlo := hfirst e he
      rw [hdis] at hsub
      refine ⟨fun J hJ => h1 J (hsub (hIs ▸ hJ)), fun d hd => ?_, _, by rw [hds]; rfl, by dsimp only; omega⟩
      rw [hds] at hd
      rcases List.mem_cons.mp hd with rfl | hd
      · rintro ⟨h, -⟩
        dsimp only at h
        omega
      · exact h2 d hd
  | joined lo Is d ds hdata hdis hlast hle hIs hds =>
      rw [hlast] at hes
      obtain ⟨rfl, rfl⟩ := List.cons.inj hes
      rw [hdis] at hsub
      refine ⟨fun J hJ => h1 J (hsub (hIs ▸ hJ)), fun c hc => ?_, { d with hi := I.address + I.size }, by rw [hds]; rfl, hae⟩
      rw [hds] at hc
      rcases List.mem_cons.mp hc with rfl | hc
      · exact fun h => absurd h.1 (not_le.mpr hae)
      · exact h2 c (hlast ▸ List.mem_cons_of_mem _ hc)
  | collected sus hdata hIs hds hsync =>
      refine ⟨?_, ?_, e, by rw [hds]; exact he, hae⟩
      · rw [hIs]
        refine List.forall_mem_cons.mpr ⟨?_, h1⟩
        dsimp only
        omega
      · rw [hds]
        exact h2
  | skipped d ds hdata hneg hlast hIs hds =>
      rw [hlast] at hes
      obtain ⟨rfl, rfl⟩ := List.cons.inj hes
      refine ⟨fun J hJ => h1 J (hIs ▸ hJ), fun c hc => ?_, { d with hi := I.address + I.size }, by rw [hds]; rfl, hae⟩
      rw [hds] at hc
      rcases List.mem_cons.mp hc with rfl | hc
      · exact fun h => absurd h.1 (not_le.mpr hae)
      · exact h2 c (hlast ▸ List.mem_cons_of_mem _ hc)

/-- A round that reaches back loses an instruction. -/
theorem Outcome.loses {s t : Cursor} {I : Instr} (hs : Ordered s) (haddr : I.address = s.address)
    (h : Outcome S shdr s I t) (hdata : s.isData S shdr I = true) (hback : ReachesBack S s) :
    ∃ J ∈ s.Is, Lost t J.address := by
  obtain ⟨d, hd, hlt⟩ := hback
  obtain ⟨ds, hds⟩ : ∃ ds, s.desyncs = d :: ds := by
    cases hds : s.desyncs with
    | nil =>
        rw [hds] at hd
        cases hd
    | cons e ds =>
        rw [hds] at hd
        obtain rfl := Option.some.inj hd
        exact ⟨ds, rfl⟩
  have hdmem : d ∈ s.desyncs := hds ▸ List.mem_cons_self
  have hend := hs.nonempty d hdmem
  have hbelow : ∀ J ∈ s.Is, J.address + J.size ≤ I.address := haddr ▸ hs.below
  obtain ⟨-, h2, -, h4⟩ := discard_spec S.option_sync 0 _ hs.sorted hbelow
  rw [← haddr] at hlt hend
  obtain ⟨J, hJ, hJlo⟩ := h4.resolve_left (by omega)
  refine ⟨J, hJ, ?_⟩
  have hJpos := hs.pos J hJ
  -- the instruction is before the last interval, and in no other
  have hnone : ∀ e ∈ s.desyncs, ¬(e.lo ≤ J.address ∧ J.address < e.hi) := by
    rintro e he ⟨h, h'⟩
    rcases hs.apart J hJ e he with hle | hle <;> omega
  cases h with
  | opened lo Is byte hdata' hdis hfirst hIs hds' =>
      have := hfirst d hd
      rw [hdis] at hlt
      dsimp only at hlt
      omega
  | joined lo Is e es hdata' hdis hlast hle hIs hds' =>
      rw [hlast] at hds
      obtain ⟨rfl, rfl⟩ := List.cons.inj hds
      rw [hdis] at h2 hJlo hlt
      dsimp only at hJlo hlt
      refine ⟨fun K hK => ?_, fun c hc => ?_, _, by rw [hds']; rfl, by dsimp only; omega⟩
      · have hK' := h2 K (hIs ▸ hK)
        have hKpos := hs.pos K ?_
        · dsimp only at hK'
          omega
        · have := (discard_suffix S.option_sync 0 I.address s.Is).subset
          rw [hdis] at this
          exact this (hIs ▸ hK)
      · rw [hds'] at hc
        rcases List.mem_cons.mp hc with rfl | hc
        · rintro ⟨h, -⟩
          dsimp only at h
          omega
        · exact hnone c (hlast ▸ List.mem_cons_of_mem _ hc)
  | collected sus hdata' => exact absurd (hdata.symm.trans hdata') (by decide)
  | skipped e es hdata' => exact absurd (hdata.symm.trans hdata') (by decide)

/-! ### The section -/

/-- What was collected or decoded is accounted for; the intervals are in order and apart, and nothing that is
left is in one. -/
structure NothingDropped (S : Settings) (shdr : Section) (start t : Cursor) : Prop where
  collected : ∀ I ∈ start.Is, Accounted t I
  decoded : ∀ s u I, Visits S shdr start s → disasmRound S shdr s = .ok (some (I, u)) → Accounted t I
  intervals : t.desyncs.Pairwise fun d e => e.hi < d.lo
  outside : ∀ J ∈ t.Is, ∀ d ∈ t.desyncs, ¬(d.lo ≤ J.address ∧ J.address < d.hi)

theorem Ordered.outside {s : Cursor} (hs : Ordered s) :
    ∀ J ∈ s.Is, ∀ d ∈ s.desyncs, ¬(d.lo ≤ J.address ∧ J.address < d.hi) := by
  rintro J hJ d hd ⟨h1, h2⟩
  have := hs.pos J hJ
  rcases hs.apart J hJ d hd with h | h <;> omega

theorem accounted_advance {s : Cursor} {I : Instr} : Accounted (s.advance S) I ↔ Accounted s I := by
  rw [Accounted, Accounted, advance_Is, advance_desyncs]

theorem lost_advance {s : Cursor} {a : Int} : Lost (s.advance S) a ↔ Lost s a := by
  rw [Lost, Lost, advance_Is, advance_desyncs]

/-- What was collected at the start or decoded later is kept by the rounds, each of which keeps it. -/
theorem Finishes.accounted {s t : Cursor} {K : Instr} (hs : Ordered s) (h : Finishes S shdr s t)
    (hback : ∀ u v I, Visits S shdr s u → disasmRound S shdr u = .ok (some (I, v)) →
      (u.advance S).isData S shdr I = true → ¬ReachesBack S (u.advance S))
    (hK : Accounted s K) : Accounted t K := by
  obtain ⟨u, -, ⟨-, hu⟩, -, rfl⟩ := h.invariant (P := fun u => Ordered u ∧ Accounted u K)
    (fun u v I hu hP hround => by
      obtain ⟨haddr, -, -, hout⟩ := disasmRound_outcome hP.1 hround
      exact ⟨hP.1.round hround, (hout.accounted hP.1.advance haddr (hback u v I hu hround)).2 K
        (accounted_advance.mpr hP.2)⟩) ⟨hs, hK⟩
  exact accounted_advance.mpr hu

theorem Finishes.lost {s t : Cursor} {a : Int} (hs : Ordered s) (h : Finishes S shdr s t) (ha : Lost s a) :
    Lost t a := by
  obtain ⟨u, -, ⟨-, hu⟩, -, rfl⟩ := h.invariant (P := fun u => Ordered u ∧ Lost u a)
    (fun u v I _ hP hround => by
      obtain ⟨haddr, -, -, hout⟩ := disasmRound_outcome hP.1 hround
      exact ⟨hP.1.round hround, hout.lost hP.1.advance haddr (lost_advance.mpr hP.2)⟩) ⟨hs, ha⟩
  exact lost_advance.mpr hu

theorem Lost.not_accounted {s : Cursor} {I : Instr} (hs : Lost s I.address) (hpos : 0 < I.size) : ¬Accounted s I := by
  rintro (⟨J, hJ, h, -⟩ | ⟨d, hd, h1, h2⟩)
  · exact hs.1 J hJ h
  · exact hs.2.1 d hd ⟨h1, by omega⟩

/-- Every instruction that is collected was so at the start, or was decoded. -/
theorem Visits.collected {s t : Cursor} (hs : Ordered s) (h : Visits S shdr s t) :
    ∀ J ∈ t.Is, J ∈ s.Is ∨ ∃ u v I, Visits S shdr s u ∧ disasmRound S shdr u = .ok (some (I, v)) ∧
      J.address = I.address ∧ J.size = I.size := by
  induction h with
  | refl => exact fun J hJ => Or.inl hJ
  | @tail u v hu hround ih =>
      obtain ⟨I, hround⟩ := hround
      obtain ⟨-, -, -, hout⟩ := disasmRound_outcome (hs.visits hu) hround
      intro J hJ
      have hold : J ∈ (u.advance S).Is → J ∈ s.Is ∨ ∃ u v I, Visits S shdr s u ∧
          disasmRound S shdr u = .ok (some (I, v)) ∧ J.address = I.address ∧ J.size = I.size :=
        fun hJ => ih J (by rwa [advance_Is] at hJ)
      have hsub := (discard_suffix S.option_sync 0 I.address (u.advance S).Is).subset
      cases hout with
      | opened lo Is byte hdata hdis hfirst hIs hds =>
          rw [hdis] at hsub
          exact hold (hsub (hIs ▸ hJ))
      | joined lo Is d ds hdata hdis hlast hle hIs hds =>
          rw [hdis] at hsub
          exact hold (hsub (hIs ▸ hJ))
      | collected sus hdata hIs hds hsync =>
          rw [hIs] at hJ
          rcases List.mem_cons.mp hJ with rfl | hJ
          · exact Or.inr ⟨u, v, I, hu, hround, rfl, rfl⟩
          · exact hold hJ
      | skipped d ds hdata hneg hlast hIs hds => exact hold (hIs ▸ hJ)

/-- The first section starts with nothing. -/
theorem ordered_start (shdr : Section) : Ordered (shdr.start [] []) :=
  ⟨List.Pairwise.nil, fun _ hJ => (List.not_mem_nil hJ).elim, fun _ hJ => (List.not_mem_nil hJ).elim,
    List.Pairwise.nil, fun _ hd => (List.not_mem_nil hd).elim, fun _ hJ => (List.not_mem_nil hJ).elim,
    fun h => absurd h (lt_irrefl _)⟩

/-- Two instructions, and two bytes of data. -/
def twoBytes : Section := ⟨".text", 0, 0, [0x90, 0x90, 0x06, 0x06]⟩

/-- One instruction before data is thrown away. -/
def syncOne : Settings := ⟨nopDecoder, [], none, 1, 2⟩

end E9Tool
