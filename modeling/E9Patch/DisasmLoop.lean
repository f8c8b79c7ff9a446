import E9Patch.DisasmModel
import Mathlib.Logic.Relation

/-!
The rounds of the disassembly of a section: what one round may do, and what goes from the rounds to the whole
loop. Every round but the last makes the rest of the section smaller.
-/

namespace E9Tool
open Fallible

variable {S : Settings} {shdr : Section}

/-! ### One round -/

/-- A skip leaves what was collected, and starts afresh if it goes anywhere. -/
theorem advance_cases (s : Cursor) :
    (S.skip s.address = 0 ∧ s.advance S = s) ∨
      (0 < S.skip s.address ∧ s.advance S = { s with
        address := s.address + S.skip s.address
        code := s.code + S.skip s.address
        size := s.size - S.skip s.address
        sync := 0
        first := true }) := by
  rw [Cursor.advance]
  by_cases h : S.skip s.address > 0
  · refine Or.inr ⟨h, ?_⟩
    rw [if_pos h]
    congr 1
    split_ifs with hsize
    · omega
    · rfl
  · exact Or.inl ⟨by omega, if_neg h⟩

@[simp] theorem advance_Is (s : Cursor) : (s.advance S).Is = s.Is := by
  rcases advance_cases (S := S) s with ⟨-, h⟩ | ⟨-, h⟩ <;> rw [h]

@[simp] theorem advance_desyncs (s : Cursor) : (s.advance S).desyncs = s.desyncs := by
  rcases advance_cases (S := S) s with ⟨-, h⟩ | ⟨-, h⟩ <;> rw [h]

@[simp] theorem advance_address (s : Cursor) : (s.advance S).address = s.address + S.skip s.address := by
  rcases advance_cases (S := S) s with ⟨h0, h⟩ | ⟨-, h⟩
  · rw [h, h0]
    omega
  · rw [h]

@[simp] theorem advance_code (s : Cursor) : (s.advance S).code = s.code + S.skip s.address := by
  rcases advance_cases (S := S) s with ⟨h0, h⟩ | ⟨-, h⟩
  · rw [h, h0]
    omega
  · rw [h]

@[simp] theorem advance_size (s : Cursor) : (s.advance S).size = s.size - S.skip s.address := by
  rcases advance_cases (S := S) s with ⟨h0, h⟩ | ⟨-, h⟩
  · rw [h, h0]
    omega
  · rw [h]

/-- What is decoded starts where the cursor is, and is not empty. -/
theorem decode_some {s u : Cursor} {I : Instr} (h : decode S shdr s = some (I, u)) :
    I.address = s.address ∧ I.first = s.first ∧ 0 < I.size ∧ I.size ≤ s.size ∧
      u = { s with code := s.code + I.size, size := s.size - I.size, address := s.address + I.size, first := false } := by
  rw [decode] at h
  split_ifs at h with h0
  dsimp only at h
  rw [Option.some.injEq, Prod.mk.injEq] at h
  obtain ⟨rfl, rfl⟩ := h
  refine ⟨rfl, rfl, ?_, ?_, rfl⟩
  · cases hr : S.decoder.length (s.bytes shdr) with
    | none => exact Nat.one_pos
    | some n => exact S.decoder.length_pos hr
  · cases hr : S.decoder.length (s.bytes shdr) with
    | none => exact Nat.one_le_iff_ne_zero.mpr h0
    | some n =>
        have := S.decoder.length_le hr
        rw [Cursor.bytes, List.length_take] at this
        exact this.trans (min_le_left _ _)

theorem decode_none {s : Cursor} (h : decode S shdr s = none) : s.size = 0 := by
  rw [decode] at h
  split_ifs at h with h0
  exact h0

/-- A round either takes what it has decoded for data or for code. With a list nothing has a score. -/
theorem disasmRound_cases {s t : Cursor} {I : Instr} (h : disasmRound S shdr s = .ok (some (I, t))) :
    ∃ u, decode S shdr (s.advance S) = some (I, u) ∧
      (((s.advance S).isData S shdr I = true ∧ (∃ byte, t = desync S byte I u) ∧
          (S.disasm.isSome → S.option_threshold = 0)) ∨
        ((s.advance S).isData S shdr I = false ∧ (∃ sus, t = accept S { I with sus := sus } u) ∧
          (S.disasm.isSome → 0 < S.option_threshold))) := by
  rw [disasmRound] at h
  dsimp only at h
  cases hd : decode S shdr (s.advance S) with
  | none =>
      rw [hd] at h
      cases h
  | some r =>
      obtain ⟨J, u⟩ := r
      rw [hd] at h
      dsimp only at h
      split_ifs at h with h1 h2
      · injection h with h
        rw [Option.some.injEq, Prod.mk.injEq] at h
        obtain ⟨rfl, rfl⟩ := h
        refine ⟨u, rfl, Or.inl ⟨h2, ⟨_, rfl⟩, fun hlist => ?_⟩⟩
        simp only [Cursor.isData, hlist, if_true, decide_eq_true_eq] at h2
        rcases h2 with hdata | hscore
        · exact absurd ⟨hdata, hlist⟩ h1
        · omega
      · injection h with h
        rw [Option.some.injEq, Prod.mk.injEq] at h
        obtain ⟨rfl, rfl⟩ := h
        refine ⟨u, rfl, Or.inr ⟨Bool.eq_false_iff.mpr h2, ⟨_, rfl⟩, fun hlist => ?_⟩⟩
        simp only [Cursor.isData, hlist, if_true, decide_eq_true_eq, not_or] at h2
        omega

theorem discard_suffix (n i : Nat) (lo : Int) (Is : List Instr) : (discard n i lo Is).2 <:+ Is := by
  induction Is generalizing i lo with
  | nil => exact List.suffix_rfl
  | cons J Is ih =>
      rw [discard]
      split_ifs
      · exact List.suffix_cons _ _
      · exact (ih _ _).trans (List.suffix_cons _ _)
      · exact (ih _ _).trans (List.suffix_cons _ _)
      · exact List.suffix_rfl

@[simp] theorem desync_address (byte : UInt8) (I : Instr) (s : Cursor) : (desync S byte I s).address = s.address := rfl
@[simp] theorem desync_code (byte : UInt8) (I : Instr) (s : Cursor) : (desync S byte I s).code = s.code := rfl
@[simp] theorem desync_size (byte : UInt8) (I : Instr) (s : Cursor) : (desync S byte I s).size = s.size := rfl
@[simp] theorem desync_sync (byte : UInt8) (I : Instr) (s : Cursor) : (desync S byte I s).sync = -S.option_sync := rfl

/-- Code is collected, unless there was data just before. -/
theorem accept_cases (I : Instr) (s : Cursor) :
    (0 ≤ s.sync + 1 ∧ accept S I s = { s with sync := s.sync + 1, Is := I :: s.Is }) ∨
      (s.sync + 1 < 0 ∧ accept S I s = { s with
        sync := if I.sus then -S.option_sync else s.sync + 1
        desyncs := match s.desyncs with
          | [] => []
          | d :: desyncs => { d with hi := I.address + I.size } :: desyncs }) := by
  rw [accept]
  by_cases h : s.sync + 1 ≥ 0
  · exact Or.inl ⟨h, if_pos h⟩
  · exact Or.inr ⟨by omega, if_neg h⟩

@[simp] theorem accept_address (I : Instr) (s : Cursor) : (accept S I s).address = s.address := by
  rcases accept_cases (S := S) I s with ⟨-, h⟩ | ⟨-, h⟩ <;> rw [h]

@[simp] theorem accept_code (I : Instr) (s : Cursor) : (accept S I s).code = s.code := by
  rcases accept_cases (S := S) I s with ⟨-, h⟩ | ⟨-, h⟩ <;> rw [h]

@[simp] theorem accept_size (I : Instr) (s : Cursor) : (accept S I s).size = s.size := by
  rcases accept_cases (S := S) I s with ⟨-, h⟩ | ⟨-, h⟩ <;> rw [h]

/-- A round goes on behind what it has decoded, with less of the section left. -/
theorem disasmRound_moves {s t : Cursor} {I : Instr} (h : disasmRound S shdr s = .ok (some (I, t))) :
    I.address = s.address + S.skip s.address ∧ 0 < I.size ∧ t.address = I.address + I.size ∧
      S.skip s.address + I.size ≤ s.size ∧ t.size = s.size - S.skip s.address - I.size ∧
      t.code = s.code + S.skip s.address + I.size := by
  obtain ⟨u, hd, hcases⟩ := disasmRound_cases h
  obtain ⟨haddr, -, hpos, hle, hu⟩ := decode_some hd
  rw [advance_address] at haddr
  rw [advance_size] at hle
  have hmoved : t.address = u.address ∧ t.size = u.size ∧ t.code = u.code := by
    rcases hcases with ⟨-, ⟨byte, rfl⟩, -⟩ | ⟨-, ⟨sus, rfl⟩, -⟩
    · exact ⟨rfl, rfl, rfl⟩
    · exact ⟨accept_address _ _, accept_size _ _, accept_code _ _⟩
  rw [hmoved.1, hmoved.2.1, hmoved.2.2, hu, haddr]
  dsimp only
  rw [advance_address, advance_size, advance_code]
  exact ⟨rfl, hpos, rfl, by omega, rfl, rfl⟩

theorem disasmRound_end {s : Cursor} (h : disasmRound S shdr s = .ok none) : s.size ≤ S.skip s.address := by
  rw [disasmRound] at h
  dsimp only at h
  cases hd : decode S shdr (s.advance S) with
  | none =>
      have := decode_none hd
      rw [advance_size] at this
      omega
  | some r =>
      rw [hd] at h
      dsimp only at h
      split_ifs at h <;> cases h

/-! ### The loop -/

/-- One round of the loop, other than the last. -/
def NextRound (S : Settings) (shdr : Section) (s t : Cursor) : Prop := ∃ I, disasmRound S shdr s = .ok (some (I, t))

/-- The loop comes from `s` to `t` at the start of some round. -/
abbrev Visits (S : Settings) (shdr : Section) : Cursor → Cursor → Prop := Relation.ReflTransGen (NextRound S shdr)

/-- The loop from `s` on ends with `t`. -/
def Finishes (S : Settings) (shdr : Section) (s t : Cursor) : Prop :=
  ∃ fuel, s.size < fuel ∧ disasmLoop S shdr fuel s = .ok t

theorem NextRound.size_lt {s t : Cursor} (h : NextRound S shdr s t) : t.size < s.size := by
  obtain ⟨I, h⟩ := h
  obtain ⟨-, hpos, -, hle, hsize, -⟩ := disasmRound_moves h
  omega

theorem Finishes.cases {s t : Cursor} (h : Finishes S shdr s t) :
    (disasmRound S shdr s = .ok none ∧ t = s.advance S) ∨
      ∃ I u, disasmRound S shdr s = .ok (some (I, u)) ∧ Finishes S shdr u t := by
  obtain ⟨fuel, hfuel, h⟩ := h
  cases fuel with
  | zero => exact absurd hfuel (Nat.not_lt_zero _)
  | succ fuel =>
      rw [disasmLoop, bind_ok] at h
      obtain ⟨r, hr, h⟩ := h
      cases r with
      | none =>
          injection h with h
          exact Or.inl ⟨hr, h.symm⟩
      | some r =>
          have := NextRound.size_lt ⟨r.1, hr⟩
          exact Or.inr ⟨r.1, r.2, hr, fuel, by omega, h⟩

theorem Finishes.next {s u t : Cursor} (h : Finishes S shdr s t) (hround : NextRound S shdr s u) :
    Finishes S shdr u t := by
  obtain ⟨I, hround⟩ := hround
  rcases h.cases with ⟨hend, -⟩ | ⟨J, v, hnext, hv⟩
  · rw [hround] at hend
    cases hend
  · rw [hround] at hnext
    injection hnext with hnext
    rw [Option.some.injEq, Prod.mk.injEq] at hnext
    rw [hnext.2]
    exact hv

theorem Finishes.visits {s u t : Cursor} (h : Finishes S shdr s t) (hu : Visits S shdr s u) :
    Finishes S shdr u t := by
  induction hu with
  | refl => exact h
  | tail _ hround ih => exact ih.next hround

/-- What every round keeps holds where the loop ends. -/
theorem Finishes.invariant {P : Cursor → Prop} {s t : Cursor} (h : Finishes S shdr s t)
    (hround : ∀ u v I, Visits S shdr s u → P u → disasmRound S shdr u = .ok (some (I, v)) → P v) (hs : P s) :
    ∃ u, Visits S shdr s u ∧ P u ∧ disasmRound S shdr u = .ok none ∧ t = u.advance S := by
  obtain ⟨n, hn⟩ : ∃ n, s.size ≤ n := ⟨_, le_rfl⟩
  induction n generalizing s with
  | zero =>
      rcases h.cases with ⟨hend, ht⟩ | ⟨I, u, hnext, -⟩
      · exact ⟨s, .refl, hs, hend, ht⟩
      · have := NextRound.size_lt ⟨I, hnext⟩
        omega
  | succ n ih =>
      rcases h.cases with ⟨hend, ht⟩ | ⟨I, u, hnext, hu⟩
      · exact ⟨s, .refl, hs, hend, ht⟩
      · have hfirst : NextRound S shdr s u := ⟨I, hnext⟩
        have := hfirst.size_lt
        obtain ⟨v, hv, hP, hend, ht⟩ := ih hu (fun v w J hv => hround v w J (.head hfirst hv))
          (hround s u I .refl hs hnext) (by omega)
        exact ⟨v, .head hfirst hv, hP, hend, ht⟩

theorem disasmSection_finishes {Is : List Instr} {desyncs : List Desync} {t : Cursor}
    (h : disasmSection S shdr Is desyncs = .ok t) : Finishes S shdr (shdr.start Is desyncs) t := by
  rw [disasmSection, bind_ok] at h
  obtain ⟨s, hs, h⟩ := h
  split_ifs at h
  injection h with h
  rw [← h]
  exact ⟨_, Nat.lt_succ_self _, hs⟩

/-! ### Totality -/

/-- Without a list a round does not fail. -/
theorem disasmRound_total (shdr : Section) (hlist : S.disasm = none) (s : Cursor) :
    ∃ r, disasmRound S shdr s = .ok r := by
  rw [disasmRound]
  dsimp only
  cases hd : decode S shdr (s.advance S) with
  | none => exact ⟨_, rfl⟩
  | some r =>
      simp only [hlist, Option.isSome_none, Bool.false_eq_true, and_false, if_false]
      split_ifs
      · exact ⟨_, rfl⟩
      · exact ⟨_, rfl⟩

theorem disasmLoop_total (shdr : Section) (hlist : S.disasm = none) (fuel : Nat) (s : Cursor) :
    ∃ t, disasmLoop S shdr fuel s = .ok t := by
  induction fuel generalizing s with
  | zero => exact ⟨s, rfl⟩
  | succ fuel ih =>
      obtain ⟨r, hr⟩ := disasmRound_total shdr hlist s
      cases r with
      | none => exact ⟨s.advance S, by rw [disasmLoop, hr]; rfl⟩
      | some r =>
          obtain ⟨t, ht⟩ := ih r.2
          exact ⟨t, by rw [disasmLoop, hr]; exact ht⟩

/-- The loop takes the whole section, and does not fail without a list. -/
theorem disasmSection_total (hlist : S.disasm = none) (Is : List Instr) (desyncs : List Desync) :
    ∃ t, disasmSection S shdr Is desyncs = .ok t := by
  obtain ⟨t, ht⟩ := disasmLoop_total shdr hlist (shdr.bytes.length + 1) (shdr.start Is desyncs)
  obtain ⟨u, -, hu, hend, rfl⟩ := Finishes.invariant ⟨_, Nat.lt_succ_self _, ht⟩
    (P := fun u => shdr.bytes.length ≤ u.code + u.size) (fun u v I _ hu hround => by
      obtain ⟨-, -, -, hle, hsize, hcode⟩ := disasmRound_moves hround
      omega) (by simp [Section.start])
  refine ⟨u.advance S, ?_⟩
  have := disasmRound_end hend
  rw [disasmSection, bind_ok]
  refine ⟨_, ht, if_neg ?_⟩
  rw [advance_code]
  omega

end E9Tool
