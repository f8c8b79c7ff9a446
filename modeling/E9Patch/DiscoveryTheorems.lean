import E9Patch.FunctionDiscovery
import E9Patch.GraphEdges

/-!
Runs of the function discovery. All that matters of a function is where it starts and ends. The recursion ends since
each call that goes on lists an address that was not listed, and the sweep of a body since it wraps around once at
most. A second entry with the same start comes from a lookup that finds another function, whose range has the start.
-/

namespace E9Patch
open Reader

/-! ### Where functions start and end -/

def E9Function.span (func : E9Function) : Nat × Nat := (func.address, func.end_address)

def FunctionList.spans (s : FunctionList) : List (Nat × Nat) := s.functions.map E9Function.span

/-- The function starts at the address, or has it in its range. -/
def spanHolds (p : Nat × Nat) (addr : Nat) : Bool := p.1 = addr || p.2 ≠ 0 && addr ≥ p.1 && addr < p.2

/-- The address is the start of a listed function, or lies inside one. -/
def FunctionList.Covers (s : FunctionList) (addr : Nat) : Prop := ∃ func ∈ s.functions, func.holds addr = true

/-- The starts are distinct, and the counter has the number of functions, in its 32 bits. -/
structure FunctionList.Consistent (s : FunctionList) : Prop where
  distinct : (s.functions.map (·.address)).Nodup
  counted : s.num_functions = s.functions.length % 2 ^ 32

/-- Where a function starts at the address, the lookup finds that one. -/
def FunctionList.Clear (s : FunctionList) (addr : Nat) : Prop :=
  (∃ func ∈ s.functions, func.address = addr) → ∃ func, e9_function_at s.functions addr = some func ∧ func.address = addr

/-- The functions of `s` are still there, behind others. -/
def FunctionList.Grows (s t : FunctionList) : Prop := ∃ new, t.spans = new ++ s.spans

section
variable {s t u : FunctionList} {addr : Nat}

theorem FunctionList.covers_iff : s.Covers addr ↔ ∃ p ∈ s.spans, spanHolds p addr = true := by
  unfold FunctionList.Covers FunctionList.spans
  simp only [List.mem_map, exists_exists_and_eq_and]
  rfl

theorem FunctionList.isSome_function_at : (e9_function_at s.functions addr).isSome ↔ s.Covers addr := by
  unfold e9_function_at FunctionList.Covers
  exact List.find?_isSome

theorem FunctionList.starts_eq (s : FunctionList) : s.functions.map (·.address) = s.spans.map Prod.fst := by
  unfold FunctionList.spans
  rw [List.map_map]
  rfl

theorem FunctionList.length_spans (s : FunctionList) : s.spans.length = s.functions.length := List.length_map _

theorem FunctionList.Grows.refl (s : FunctionList) : s.Grows s := ⟨[], rfl⟩

theorem FunctionList.Grows.trans (h : s.Grows t) (h' : t.Grows u) : s.Grows u := by
  obtain ⟨new, hnew⟩ := h
  obtain ⟨more, hmore⟩ := h'
  exact ⟨more ++ new, by rw [hmore, hnew, List.append_assoc]⟩

theorem FunctionList.Covers.grows (h : s.Covers addr) (hg : s.Grows t) : t.Covers addr := by
  obtain ⟨p, hp, hholds⟩ := FunctionList.covers_iff.mp h
  obtain ⟨new, hnew⟩ := hg
  exact FunctionList.covers_iff.mpr ⟨p, hnew ▸ List.mem_append_right new hp, hholds⟩

/-- What a lookup finds, by starts and ends. -/
theorem FunctionList.function_at_spans (s : FunctionList) (addr : Nat) :
    (e9_function_at s.functions addr).map E9Function.span = s.spans.find? (spanHolds · addr) := by
  unfold e9_function_at FunctionList.spans
  rw [List.find?_map]
  rfl

theorem FunctionList.clear_iff : s.Clear addr ↔ (addr ∈ s.spans.map Prod.fst →
    ∃ p, s.spans.find? (spanHolds · addr) = some p ∧ p.1 = addr) := by
  unfold FunctionList.Clear
  rw [← FunctionList.function_at_spans, ← FunctionList.starts_eq]
  simp only [List.mem_map, Option.map_eq_some_iff, exists_exists_and_eq_and]
  rfl

end

/-! ### Bodies -/

variable (d : Block) (bin : E9Binary)

/-- The sweep of the body of `start` comes from `a` to `x`. -/
inductive BodyFrom (start : Nat) : Nat → Nat → Prop where
  | here {a : Nat} : a < addrPlus start 0x10000 → BodyFrom start a a
  | next {a x : Nat} {insn : Insn} : a < addrPlus start 0x10000 → disassembled d bin a = some insn →
      insn.category ≠ .RET → ¬leavesBody start insn → BodyFrom start (addrPlus a insn.size) x → BodyFrom start a x

/-- From `a` on, the sweep meets a direct call of `target`. -/
def CallFrom (start a target : Nat) : Prop :=
  ∃ x insn, BodyFrom d bin start a x ∧ disassembled d bin x = some insn ∧ insn.category = .CALL ∧
    insn.target_is_indirect = false ∧ insn.target = target

/-- What is called in the body of a function with a known end is covered. -/
def FunctionList.Closed (s : FunctionList) : Prop :=
  ∀ func ∈ s.functions, func.end_address ≠ 0 → ∀ target, CallFrom d bin func.address func.address target → s.Covers target

/-- What holds between the calls, and at each point of the recursion. -/
structure FunctionList.Good (s : FunctionList) : Prop where
  consistent : s.Consistent
  closed : s.Closed d bin

theorem FunctionList.closed_iff {s : FunctionList} : s.Closed d bin ↔
    ∀ p ∈ s.spans, p.2 ≠ 0 → ∀ target, CallFrom d bin p.1 p.1 target → s.Covers target := by
  unfold FunctionList.Closed FunctionList.spans
  simp only [List.mem_map, forall_exists_index, and_imp, forall_apply_eq_imp_iff₂]
  rfl

theorem FunctionList.Good.of_spans {s t : FunctionList} (h : s.Good d bin) (hspans : t.spans = s.spans)
    (hnum : t.num_functions = s.num_functions) : t.Good d bin := by
  refine ⟨⟨?_, ?_⟩, ?_⟩
  · rw [FunctionList.starts_eq, hspans, ← FunctionList.starts_eq]
    exact h.consistent.distinct
  · rw [hnum, ← FunctionList.length_spans, hspans, FunctionList.length_spans]
    exact h.consistent.counted
  · rw [FunctionList.closed_iff, hspans]
    exact fun p hp hend target hcall =>
      ((FunctionList.closed_iff d bin).mp h.closed p hp hend target hcall).grows ⟨[], by rw [hspans]; rfl⟩

/-! ### The sweep of a body -/

variable {d bin}

theorem disasmOffset_le (a : Nat) : disasmOffset bin a ≤ a := by
  unfold disasmOffset
  split
  · exact Nat.sub_le _ _
  · exact Nat.le_refl _

/-- What an address decodes to is what the disassembler gives there. -/
theorem disasm_eq {a : Nat} (h : disasmOffset bin a < 2 ^ 64 - 4) :
    e9_disasm_instruction d bin a = .ok (disassembled d bin a) := by
  obtain ⟨r, hr⟩ := @e9_disasm_instruction_ok a d bin (by omega)
  unfold disassembled
  rw [hr]
  rfl

/-- What is left of a sweep: it wraps around at most once, since the file is smaller than what is behind it. -/
def sweepLeft (d : Block) (bin : E9Binary) (a : Nat) : Nat :=
  if bin.base_address + d.size < 2 ^ 64 ∨ a < bin.base_address then 2 ^ 64 - a else 2 ^ 64 + (2 ^ 64 - a)

theorem sweepLeft_le (a : Nat) : sweepLeft d bin a ≤ 2 ^ 65 := by
  unfold sweepLeft
  split <;> omega

/-- One step of a sweep. -/
theorem sweep_step {a : Nat} {insn : Insn} (ha : a < 2 ^ 64) (h : disassembled d bin a = some insn) :
    addrPlus a insn.size < 2 ^ 64 ∧ disasmOffset bin (addrPlus a insn.size) < 2 ^ 64 - 4 ∧
      sweepLeft d bin (addrPlus a insn.size) < sweepLeft d bin a := by
  obtain ⟨size, hpos, hmax, hinside, hat⟩ := disassembled_decoded h
  have hsize := hat.size
  have hfile := d.size_lt
  have hplus : addrPlus a insn.size = (a + insn.size) % 2 ^ 64 := by
    unfold addrPlus
    omega
  have hoffset := @disasmOffset_le bin (addrPlus a insn.size)
  unfold MAX_INSN_SIZE at hmax
  unfold disasmOffset at hinside hoffset ⊢
  unfold sweepLeft
  rw [hplus] at hoffset ⊢
  refine ⟨by omega, ?_, ?_⟩
  · split at hinside <;> split <;> omega
  · split at hinside <;> split <;> split <;> omega

/-! ### Adding a function -/

/-- The list with a function in front. -/
def FunctionList.push (s : FunctionList) (addr : Nat) (name : Option (List UInt8)) : FunctionList :=
  ⟨E9Function.start addr name :: s.functions, (s.num_functions + 1) % 2 ^ 32⟩

/-- The addresses at which no function starts. -/
def FunctionList.missing (s : FunctionList) : Nat := 2 ^ 64 - ((s.spans.map Prod.fst).filter (· < 2 ^ 64)).length

section
variable {s t : FunctionList} {addr : Nat} {name : Option (List UInt8)}

theorem FunctionList.spans_push : (s.push addr name).spans = (addr, 0) :: s.spans := rfl

theorem FunctionList.grows_push : s.Grows (s.push addr name) := ⟨[(addr, 0)], rfl⟩

theorem FunctionList.covers_push : (s.push addr name).Covers addr :=
  ⟨E9Function.start addr name, List.mem_cons_self, by simp [E9Function.holds, E9Function.start]⟩

/-- Where no function starts, a list that is good stays good. -/
theorem FunctionList.Good.push (hs : s.Good d bin) (hnew : addr ∉ s.spans.map Prod.fst) : (s.push addr name).Good d bin := by
  refine ⟨⟨?_, ?_⟩, ?_⟩
  · rw [FunctionList.starts_eq, FunctionList.spans_push, List.map_cons]
    refine List.nodup_cons.mpr ⟨hnew, ?_⟩
    rw [← FunctionList.starts_eq]
    exact hs.consistent.distinct
  · have hcount := hs.consistent.counted
    unfold FunctionList.push
    rw [List.length_cons]
    dsimp only
    omega
  · rw [FunctionList.closed_iff, FunctionList.spans_push]
    intro p hp hend target hcall
    rcases List.mem_cons.mp hp with rfl | hp
    · exact absurd rfl hend
    · exact ((FunctionList.closed_iff d bin).mp hs.closed p hp hend target hcall).grows FunctionList.grows_push

theorem FunctionList.Grows.missing_le (h : s.Grows t) : t.missing ≤ s.missing := by
  obtain ⟨new, hnew⟩ := h
  unfold FunctionList.missing
  rw [hnew, List.map_append, List.filter_append, List.length_append]
  omega

/-- Distinct numbers below a bound are no more than the bound. -/
theorem length_le_of_nodup {xs : List Nat} {n : Nat} (h : xs.Nodup) (hlt : ∀ x ∈ xs, x < n) : xs.length ≤ n := by
  have hsub : xs ⊆ List.range n := fun x hx => List.mem_range.mpr (hlt x hx)
  simpa using (List.subperm_of_subset h hsub).length_le

/-- One address less is missing. -/
theorem FunctionList.missing_push (hs : s.Good d bin) (haddr : addr < 2 ^ 64) (hnew : addr ∉ s.spans.map Prod.fst) :
    (s.push addr name).missing < s.missing := by
  have hdistinct := (@FunctionList.Good.push _ _ _ _ name hs hnew).consistent.distinct
  rw [FunctionList.starts_eq, FunctionList.spans_push, List.map_cons] at hdistinct
  have hbound := length_le_of_nodup (hdistinct.filter (· < 2 ^ 64)) fun x hx => by
    simpa using (List.mem_filter.mp hx).2
  unfold FunctionList.missing
  rw [FunctionList.spans_push, List.map_cons]
  rw [List.filter_cons_of_pos (by simpa using haddr), List.length_cons] at hbound ⊢
  omega

theorem FunctionList.not_start_of_not_covers (h : ¬s.Covers addr) : addr ∉ s.spans.map Prod.fst := by
  intro hmem
  obtain ⟨p, hp, heq⟩ := List.mem_map.mp hmem
  refine h (FunctionList.covers_iff.mpr ⟨p, hp, ?_⟩)
  unfold spanHolds
  simp [heq]

/-- Where no function is found, one is added in front. -/
theorem function_add_of_not_covers (h : ¬s.Covers addr) :
    e9_function_add s addr name = (s.push addr name, s.functions.length) := by
  have hnone : s.functions.findIdx? (·.holds addr) = none := by
    refine List.findIdx?_eq_none_iff.mpr fun func hfunc => ?_
    by_contra hholds
    exact h ⟨func, hfunc, by simpa using hholds⟩
  unfold e9_function_add
  rw [hnone]
  rfl

end

/-! ### The recursion -/

section
variable {follow : FunctionList → Nat → Except Fault FunctionList} {fuel : Nat}

/-- What the recursion does for an address: it ends with a good list, which has grown, and the address is covered. -/
def Follows (d : Block) (bin : E9Binary) (follow : FunctionList → Nat → Except Fault FunctionList) (fuel : Nat) : Prop :=
  ∀ {s : FunctionList} {addr : Nat}, s.Good d bin → addr < 2 ^ 64 → s.missing < fuel →
    ∃ t, follow s addr = .ok t ∧ s.Grows t ∧ t.Good d bin ∧ t.Covers addr

theorem bodyFrom_iff {start a x : Nat} {insn : Insn} (ha : a < addrPlus start 0x10000)
    (hinsn : disassembled d bin a = some insn) : BodyFrom d bin start a x ↔
      x = a ∨ insn.category ≠ .RET ∧ ¬leavesBody start insn ∧ BodyFrom d bin start (addrPlus a insn.size) x := by
  constructor
  · intro h
    cases h with
    | here => exact Or.inl rfl
    | next _ hother hret hleaves hrest =>
        obtain rfl := Option.some.inj (hinsn.symm.trans hother)
        exact Or.inr ⟨hret, hleaves, hrest⟩
  · rintro (rfl | ⟨hret, hleaves, hrest⟩)
    · exact BodyFrom.here ha
    · exact BodyFrom.next ha hinsn hret hleaves hrest

theorem followCall_spec (hfollow : Follows d bin follow fuel) {s : FunctionList} {insn : Insn} (hs : s.Good d bin)
    (hmissing : s.missing < fuel) (htarget : insn.target < 2 ^ 64) :
    ∃ t, followCall follow s insn = .ok t ∧ s.Grows t ∧ t.Good d bin ∧
      (insn.category = .CALL → insn.target_is_indirect = false → t.Covers insn.target) := by
  unfold followCall
  by_cases hcall : insn.category = .CALL ∧ insn.target_is_indirect = false
  · obtain ⟨t, ht, hgrows, hgood, hcovers⟩ := hfollow hs htarget hmissing
    rw [if_pos hcall]
    exact ⟨t, ht, hgrows, hgood, fun _ _ => hcovers⟩
  · rw [if_neg hcall]
    exact ⟨s, rfl, .refl s, hs, fun h h' => absurd ⟨h, h'⟩ hcall⟩

/-- The body is swept, and what it calls is covered. -/
theorem bodyLoop_spec (hfollow : Follows d bin follow fuel) (start : Nat) {steps addr : Nat} {s : FunctionList}
    (hs : s.Good d bin) (haddr : addr < 2 ^ 64) (hoffset : addr < addrPlus start 0x10000 → disasmOffset bin addr < 2 ^ 64 - 4)
    (hmissing : s.missing < fuel) (hsteps : sweepLeft d bin addr < steps) :
    ∃ t e a, bodyLoop d bin follow start steps s addr = .ok (t, e, a) ∧ s.Grows t ∧ t.Good d bin ∧
      ∀ target, CallFrom d bin start addr target → t.Covers target := by
  induction steps generalizing addr s with
  | zero => omega
  | succ steps ih =>
      unfold bodyLoop
      by_cases hmore : addr < addrPlus start 0x10000
      · rw [if_pos hmore, disasm_eq (hoffset hmore), ok_bind]
        cases hinsn : disassembled d bin addr with
        | none =>
            refine ⟨s, 0, addr, rfl, .refl s, hs, ?_⟩
            rintro target ⟨x, insn, hbody, hx, -⟩
            cases hbody with
            | here => exact nomatch hinsn.symm.trans hx
            | next _ hother => exact nomatch hinsn.symm.trans hother
        | some insn =>
            obtain ⟨hlt, hnext, hless⟩ := sweep_step haddr hinsn
            obtain ⟨size, -, -, -, hat⟩ := disassembled_decoded hinsn
            dsimp only
            by_cases hret : insn.category = .RET
            · rw [if_pos hret]
              refine ⟨s, _, addr, rfl, .refl s, hs, ?_⟩
              rintro target ⟨x, other, hbody, hx, hcall, -⟩
              rcases (bodyFrom_iff hmore hinsn).mp hbody with rfl | ⟨hnot, -⟩
              · obtain rfl := Option.some.inj (hinsn.symm.trans hx)
                rw [hret] at hcall
                cases hcall
              · exact absurd hret hnot
            · rw [if_neg hret]
              obtain ⟨u, hu, hgrows, hgood, hcovers⟩ := followCall_spec hfollow hs hmissing hat.bounded
              rw [hu, ok_bind]
              by_cases hleaves : leavesBody start insn
              · rw [if_pos hleaves]
                refine ⟨u, _, addr, rfl, hgrows, hgood, ?_⟩
                rintro target ⟨x, other, hbody, hx, hcall, hdirect, rfl⟩
                rcases (bodyFrom_iff hmore hinsn).mp hbody with rfl | ⟨-, hnot, -⟩
                · obtain rfl := Option.some.inj (hinsn.symm.trans hx)
                  exact hcovers hcall hdirect
                · exact absurd hleaves hnot
              · rw [if_neg hleaves]
                obtain ⟨t, e, a, ht, hmore', hgood', hcalls⟩ := ih hgood hlt (fun _ => hnext)
                  (Nat.lt_of_le_of_lt hgrows.missing_le hmissing) (by omega)
                refine ⟨t, e, a, ht, hgrows.trans hmore', hgood', ?_⟩
                rintro target ⟨x, other, hbody, hx, hcall, hdirect, rfl⟩
                rcases (bodyFrom_iff hmore hinsn).mp hbody with rfl | ⟨-, -, hrest⟩
                · obtain rfl := Option.some.inj (hinsn.symm.trans hx)
                  exact (hcovers hcall hdirect).grows hmore'
                · exact hcalls _ ⟨x, other, hrest, hx, hcall, hdirect, rfl⟩
      · rw [if_neg hmore]
        refine ⟨s, 0, addr, rfl, .refl s, hs, ?_⟩
        rintro target ⟨x, insn, hbody, -⟩
        cases hbody with
        | here hlt => exact absurd hlt hmore
        | next hlt => exact absurd hlt hmore

/-- What is written to a list at the place behind its first elements. -/
theorem modify_middle {α : Type} (xs ys : List α) (y : α) (f : α → α) :
    (xs ++ y :: ys).modify xs.length f = xs ++ f y :: ys := by
  induction xs with
  | nil => rfl
  | cons x xs ih => exact congrArg (x :: ·) ih

theorem map_modify {α β : Type} {g : α → β} {f : α → α} {f' : β → β} (h : ∀ x, g (f x) = f' (g x)) (xs : List α) (i : Nat) :
    (xs.modify i f).map g = (xs.map g).modify i f' := by
  induction xs generalizing i with
  | nil => cases i <;> rfl
  | cons x xs ih =>
      cases i with
      | zero => exact congrArg (· :: xs.map g) (h x)
      | succ i => exact congrArg (g x :: ·) (ih i)

/-- A function that was added is given an end and a size. -/
theorem FunctionList.spans_close {s t : FunctionList} {start e a : Nat} {name : Option (List UInt8)}
    (h : (s.push start name).Grows t) : ∃ new fin, t.spans = new ++ (start, 0) :: s.spans ∧
      (t.update s.functions.length (closeFunction start e a)).spans = new ++ (start, fin) :: s.spans := by
  obtain ⟨new, hnew⟩ := h
  rw [FunctionList.spans_push] at hnew
  refine ⟨new, if e ≠ 0 then e else a, hnew, ?_⟩
  have hlen : t.functions.length - 1 - s.functions.length = new.length := by
    have hspans := congrArg List.length hnew
    rw [List.length_append, List.length_cons, FunctionList.length_spans, FunctionList.length_spans] at hspans
    omega
  have hmap : (t.functions.modify new.length (closeFunction start e a)).map E9Function.span =
      t.spans.modify new.length fun p => (p.1, if e ≠ 0 then e else a) :=
    @map_modify _ _ E9Function.span (closeFunction start e a) (fun p => (p.1, if e ≠ 0 then e else a)) (fun _ => rfl) _ _
  unfold FunctionList.update
  rw [hlen]
  exact hmap.trans (by rw [hnew, modify_middle])

/-- What was covered is covered when a function gets its end. -/
theorem FunctionList.Covers.close {t u : FunctionList} {old new : List (Nat × Nat)} {start fin addr : Nat}
    (ht : t.spans = new ++ (start, 0) :: old) (hu : u.spans = new ++ (start, fin) :: old) (h : t.Covers addr) :
    u.Covers addr := by
  obtain ⟨p, hp, hholds⟩ := FunctionList.covers_iff.mp h
  rw [ht] at hp
  rw [FunctionList.covers_iff, hu]
  rcases List.mem_append.mp hp with hp | hp
  · exact ⟨p, List.mem_append_left _ hp, hholds⟩
  · rcases List.mem_cons.mp hp with rfl | hp
    · have haddr : start = addr := by simpa [spanHolds] using hholds
      refine ⟨(start, fin), List.mem_append_right _ List.mem_cons_self, ?_⟩
      unfold spanHolds
      simp [haddr]
    · exact ⟨p, List.mem_append_right _ (List.mem_cons_of_mem _ hp), hholds⟩

/-- The recursion ends with a good list, for any fuel above the number of addresses that no function starts at. -/
theorem discover_spec {steps : Nat} (hsteps : 2 ^ 65 < steps) (fuel : Nat) :
    Follows d bin (discover_functions_recursive d bin steps fuel) fuel := by
  induction fuel with
  | zero => exact fun _ _ hmissing => absurd hmissing (Nat.not_lt_zero _)
  | succ fuel ih =>
      intro s start hs hstart hmissing
      unfold discover_functions_recursive
      by_cases hcovers : s.Covers start
      · rw [if_pos (FunctionList.isSome_function_at.mpr hcovers)]
        exact ⟨s, rfl, .refl s, hs, hcovers⟩
      · have hnew := FunctionList.not_start_of_not_covers hcovers
        have hpushed := @FunctionList.Good.push _ _ _ _ none hs hnew
        have hless := @FunctionList.missing_push _ _ _ _ none hs hstart hnew
        have hoffset : start < addrPlus start 0x10000 → disasmOffset bin start < 2 ^ 64 - 4 := by
          intro hlt
          have hle := @disasmOffset_le bin start
          unfold addrPlus at hlt
          omega
        obtain ⟨t, e, a, ht, hgrows, hgood, hcalls⟩ := bodyLoop_spec ih start hpushed hstart hoffset
          (by omega) (Nat.lt_of_le_of_lt (sweepLeft_le start) hsteps)
        obtain ⟨new, fin, hspans, hclosed⟩ := FunctionList.spans_close (e := e) (a := a) hgrows
        rw [if_neg fun h => hcovers (FunctionList.isSome_function_at.mp h), function_add_of_not_covers hcovers]
        dsimp only
        rw [ht]
        refine ⟨_, rfl, ⟨new ++ [(start, fin)], by rw [hclosed]; simp⟩, ⟨⟨?_, ?_⟩, ?_⟩, ?_⟩
        · have hdistinct := hgood.consistent.distinct
          rw [FunctionList.starts_eq, hspans] at hdistinct
          rw [FunctionList.starts_eq, hclosed]
          simpa using hdistinct
        · have hcounted := hgood.consistent.counted
          unfold FunctionList.update
          rwa [List.length_modify]
        · rw [FunctionList.closed_iff, hclosed]
          intro p hp hend target hcall
          refine FunctionList.Covers.close hspans hclosed ?_
          rcases List.mem_append.mp hp with hp | hp
          · exact (FunctionList.closed_iff d bin).mp hgood.closed p (hspans ▸ List.mem_append_left _ hp) hend target hcall
          · rcases List.mem_cons.mp hp with rfl | hp
            · exact hcalls target hcall
            · exact (FunctionList.closed_iff d bin).mp hgood.closed p
                (hspans ▸ List.mem_append_right _ (List.mem_cons_of_mem _ hp)) hend target hcall
        · exact FunctionList.Covers.close hspans hclosed (FunctionList.covers_push.grows hgrows)

end

/-! ### The scan for prologues -/

section
variable {steps fuel scan fin addr : Nat} {s : FunctionList}

theorem discoverIf_spec (hsteps : 2 ^ 65 < steps) (hfuel : 2 ^ 64 < fuel) (found : Bool) (hs : s.Good d bin)
    (haddr : addr < 2 ^ 64) : ∃ t, discoverIf d bin steps fuel found s addr = .ok t ∧ s.Grows t ∧ t.Good d bin ∧
      (found = true → t.Covers addr) := by
  unfold discoverIf
  cases found with
  | false => exact ⟨s, rfl, .refl s, hs, nofun⟩
  | true =>
      have hmissing : s.missing < fuel := Nat.lt_of_le_of_lt (Nat.sub_le _ _) hfuel
      obtain ⟨t, ht, hgrows, hgood, hcovers⟩ := discover_spec hsteps fuel hs haddr hmissing
      exact ⟨t, ht, hgrows, hgood, fun _ => hcovers⟩

/-- The offset that the scan computes. -/
def scanOffset (bin : E9Binary) (addr : Nat) : Nat :=
  addrPlus addr (if bin.base_address ≠ 0 then -bin.base_address else 0)

theorem isPrologue_ok {offset : Nat} (h : offset + 16 ≤ d.size) : ∃ b, isPrologue d bin offset = .ok b := by
  have hhas : d.Has offset 4 := ⟨by omega, by omega⟩
  unfold isPrologue
  split
  · rw [copy_ok hhas, ok_bind]
    exact ⟨_, rfl⟩
  · rw [read_ok hhas, ok_bind]
    exact ⟨_, rfl⟩
  · exact ⟨_, rfl⟩

/-- A section is scanned to its end if none of its addresses is one of the last sixteen, nor its offset. -/
theorem scanText_spec (hsteps : 2 ^ 65 < steps) (hfuel : 2 ^ 64 < fuel)
    (hinside : ∀ a, addr ≤ a → a < fin → a + 16 < 2 ^ 64 ∧ scanOffset bin a + 16 < 2 ^ 64) (hscan : fin < scan + addr)
    (hpos : 0 < scan) (hs : s.Good d bin) :
    ∃ t, scanText d bin steps fuel fin scan s addr = .ok t ∧ s.Grows t ∧ t.Good d bin := by
  induction scan generalizing addr s with
  | zero => omega
  | succ scan ih =>
      unfold scanText
      by_cases hmore : addr < fin
      · rw [if_pos hmore]
        obtain ⟨haddr, hoffset⟩ := hinside addr (Nat.le_refl _) hmore
        have hstep : ∀ k : Nat, 0 < k → k ≤ 16 → addrPlus addr k = addr + k := fun k _ hk => addrPlus_eq (by omega)
        by_cases hcovers : (e9_function_at s.functions addr).isSome
        · rw [if_pos hcovers]
          have heq : addrPlus addr 16 = addr + 16 := hstep 16 (by decide) (by decide)
          rw [heq]
          exact ih (fun a ha hlt => hinside a (by omega) hlt) (by omega) (by omega) hs
        · rw [if_neg hcovers]
          change ∃ t, (if (scanOffset bin addr + 16) % 2 ^ 64 > d.size then _ else _) = _ ∧ _
          by_cases hout : (scanOffset bin addr + 16) % 2 ^ 64 > d.size
          · rw [if_pos hout]
            exact ⟨s, rfl, .refl s, hs⟩
          · rw [if_neg hout]
            obtain ⟨found, hfound⟩ := @isPrologue_ok d bin (scanOffset bin addr) (by omega)
            obtain ⟨u, hu, hgrows, hgood, -⟩ := discoverIf_spec hsteps hfuel found hs (show addr < 2 ^ 64 by omega)
            have hnext : ∃ k : Nat, 0 < k ∧ addrPlus addr (if bin.arch = .AARCH64 then 4 else 1) = addr + k := by
              by_cases harch : bin.arch = .AARCH64
              · rw [if_pos harch]
                exact ⟨4, by decide, hstep 4 (by decide) (by decide)⟩
              · rw [if_neg harch]
                exact ⟨1, by decide, hstep 1 (by decide) (by decide)⟩
            obtain ⟨k, hk, heq⟩ := hnext
            obtain ⟨t, ht, hgrows', hgood'⟩ :=
              @ih (addr + k) u (fun a ha hlt => hinside a (by omega) hlt) (by omega) (by omega) hgood
            refine ⟨t, ?_, hgrows.trans hgrows', hgood'⟩
            unfold scanOffset at hfound
            rw [hfound, ok_bind, hu, ok_bind, heq, ht]
      · rw [if_neg hmore]
        exact ⟨s, rfl, .refl s, hs⟩

end

/-- No section named `.text` reaches into the last 16 addresses or offsets, where the sums of the scan wrap around; a
raw binary is not scanned. -/
def ScansInside (bin : E9Binary) : Prop :=
  bin.format = .RAW ∨ ∀ sec ∈ bin.sections, sec.name = TEXT_SECTION → ∀ a, sec.addr ≤ a →
    a < addrPlus sec.addr sec.size → a + 16 < 2 ^ 64 ∧ scanOffset bin a + 16 < 2 ^ 64

theorem heuristic_spec {steps fuel scan : Nat} (hsteps : 2 ^ 65 < steps) (hfuel : 2 ^ 64 < fuel) (hscan : 2 ^ 64 < scan)
    {sections : List SectionInfo} (hinside : ∀ sec ∈ sections, sec.name = TEXT_SECTION → ∀ a, sec.addr ≤ a →
      a < addrPlus sec.addr sec.size → a + 16 < 2 ^ 64 ∧ scanOffset bin a + 16 < 2 ^ 64) {s : FunctionList}
    (hs : s.Good d bin) : ∃ t, discover_functions_heuristic d bin steps fuel scan sections s = .ok t ∧ s.Grows t ∧
      t.Good d bin := by
  induction sections generalizing s with
  | nil => exact ⟨s, rfl, .refl s, hs⟩
  | cons sec sections ih =>
      have hrest := fun other hmem => hinside other (List.mem_cons_of_mem sec hmem)
      unfold discover_functions_heuristic
      by_cases hname : sec.name = TEXT_SECTION
      · have hend := addrPlus_lt sec.addr sec.size
        obtain ⟨u, hu, hgrows, hgood⟩ := scanText_spec hsteps hfuel (hinside sec List.mem_cons_self hname)
          (show addrPlus sec.addr sec.size < scan + sec.addr by omega) (by omega) hs
        obtain ⟨t, ht, hgrows', hgood'⟩ := ih hrest hgood
        refine ⟨t, ?_, hgrows.trans hgrows', hgood'⟩
        rw [if_pos hname, hu, ok_bind, ht]
      · rw [if_neg hname]
        exact ih hrest hs

/-! ### Calls from outside -/

section
variable {s t : FunctionList} {addr x : Nat} {name : Option (List UInt8)}

theorem FunctionList.Clear.of_spans (h : s.Clear addr) (hspans : t.spans = s.spans) : t.Clear addr := by
  rw [FunctionList.clear_iff, hspans]
  exact FunctionList.clear_iff.mp h

/-- A function without an end in front hides no other. -/
theorem FunctionList.Clear.push (h : s.Clear addr) : (s.push x name).Clear addr := by
  rw [FunctionList.clear_iff, FunctionList.spans_push, List.map_cons, List.find?_cons]
  intro hmem
  by_cases hx : x = addr
  · have hholds : spanHolds (x, 0) addr = true := by simp [spanHolds, hx]
    rw [hholds]
    exact ⟨(x, 0), rfl, hx⟩
  · have hholds : spanHolds (x, 0) addr = false := by simp [spanHolds, hx]
    rw [hholds]
    refine FunctionList.clear_iff.mp h ((List.mem_cons.mp hmem).resolve_left fun heq => hx heq.symm)

/-- `e9_function_add` at an address that is clear: the list is the same, with the function listed, or has the function
in front. -/
theorem function_add_spec (hclear : s.Clear addr) :
    ((e9_function_add s addr name).1 = s ∧ ∃ func ∈ s.functions, func.address = addr) ∨
      (e9_function_add s addr name).1 = s.push addr name ∧ addr ∉ s.spans.map Prod.fst := by
  by_cases hcovers : s.Covers addr
  · obtain ⟨func, hfunc, hholds⟩ := hcovers
    cases hidx : s.functions.findIdx? (·.holds addr) with
    | none =>
        have hnone := List.findIdx?_eq_none_iff.mp hidx func hfunc
        rw [hholds] at hnone
        cases hnone
    | some i =>
        obtain ⟨hi, hp, hbefore⟩ := List.findIdx?_eq_some_iff_getElem.mp hidx
        have hfound : e9_function_at s.functions addr = some s.functions[i] :=
          List.find?_eq_some_iff_getElem.mpr ⟨hp, i, hi, rfl, fun j hj => by simpa using hbefore j hj⟩
        unfold e9_function_add
        rw [hidx]
        dsimp only
        rw [List.getElem?_eq_getElem hi, Option.map_some]
        by_cases hstart : s.functions[i].address = addr
        · rw [if_pos (congrArg some hstart)]
          exact Or.inl ⟨rfl, s.functions[i], List.getElem_mem hi, hstart⟩
        · rw [if_neg fun heq => hstart (Option.some.inj heq)]
          refine Or.inr ⟨rfl, fun hmem => ?_⟩
          rw [← FunctionList.starts_eq] at hmem
          obtain ⟨other, hother, haddress⟩ := hclear (List.mem_map.mp hmem)
          obtain rfl := Option.some.inj (hfound.symm.trans hother)
          exact hstart haddress
  · rw [function_add_of_not_covers hcovers]
    exact Or.inr ⟨rfl, FunctionList.not_start_of_not_covers hcovers⟩

/-- What an addition does at an address that is clear. -/
theorem function_add_good (hs : s.Good d bin) (hclear : s.Clear addr) :
    (e9_function_add s addr name).1.Good d bin ∧ s.Grows (e9_function_add s addr name).1 ∧
      (e9_function_add s addr name).1.Covers addr ∧
      ∀ {y : Nat}, s.Clear y → (e9_function_add s addr name).1.Clear y := by
  rcases @function_add_spec s addr name hclear with ⟨heq, func, hfunc, hstart⟩ | ⟨heq, hnew⟩
  · rw [heq]
    refine ⟨hs, .refl s, ⟨func, hfunc, ?_⟩, id⟩
    simp [E9Function.holds, hstart]
  · rw [heq]
    exact ⟨hs.push hnew, FunctionList.grows_push, FunctionList.covers_push, FunctionList.Clear.push⟩

/-- A write to a function that leaves its start and its end. -/
theorem FunctionList.spans_update {place : Nat} {f : E9Function → E9Function} (h : ∀ func, (f func).span = func.span) :
    (s.update place f).spans = s.spans := by
  unfold FunctionList.update FunctionList.spans
  have hmap := @map_modify _ _ E9Function.span f id h s.functions (s.functions.length - 1 - place)
  rw [List.modify_id] at hmap
  exact hmap

/-- The symbols are listed, as long as their addresses are clear. -/
theorem discoverSymbols_spec {symbols : List Symbol} (hs : s.Good d bin)
    (hclear : ∀ sym ∈ symbols, sym.type = .FUNCTION → s.Clear sym.address) :
    (discoverSymbols symbols s).Good d bin ∧ s.Grows (discoverSymbols symbols s) ∧
      ∀ sym ∈ symbols, sym.type = .FUNCTION → (discoverSymbols symbols s).Covers sym.address := by
  induction symbols generalizing s with
  | nil => exact ⟨hs, .refl s, nofun⟩
  | cons sym symbols ih =>
      have hrest := fun other hmem => hclear other (List.mem_cons_of_mem sym hmem)
      unfold discoverSymbols
      by_cases htype : sym.type = .FUNCTION
      · rw [if_pos htype]
        obtain ⟨hgood, hgrows, hcovers, hkeep⟩ :=
          @function_add_good d bin s sym.address sym.name hs (hclear sym List.mem_cons_self htype)
        have hspans : ((e9_function_add s sym.address sym.name).1.update (e9_function_add s sym.address sym.name).2
            fun func => { func with symbol := some sym, size := sym.size % 2 ^ 32 }).spans =
              (e9_function_add s sym.address sym.name).1.spans := FunctionList.spans_update fun _ => rfl
        obtain ⟨hgood', hgrows', hcovers'⟩ := ih (hgood.of_spans d bin hspans rfl)
          fun other hmem hother => (hkeep (hrest other hmem hother)).of_spans hspans
        have hall := hgrows.trans (FunctionList.Grows.trans ⟨[], hspans⟩ hgrows')
        refine ⟨hgood', hall, fun other hmem hother => ?_⟩
        rcases List.mem_cons.mp hmem with rfl | hmem
        · exact hcovers.grows (FunctionList.Grows.trans ⟨[], hspans⟩ hgrows')
        · exact hcovers' other hmem hother
      · rw [if_neg htype]
        obtain ⟨hgood, hgrows, hcovers⟩ := ih hs hrest
        refine ⟨hgood, hgrows, fun other hmem hother => ?_⟩
        rcases List.mem_cons.mp hmem with rfl | hmem
        · exact absurd hother htype
        · exact hcovers other hmem hother

end

/-! ### Runs -/

/-- What the discovery is to list: the function symbols, the entry point, where there is one, and what is called in a
body that was gone through. -/
structure FunctionList.Complete (d : Block) (bin : E9Binary) (s : FunctionList) : Prop where
  symbols : ∀ sym ∈ bin.symbols, sym.type = .FUNCTION → s.Covers sym.address
  entry : bin.entry_point ≠ 0 → s.Covers bin.entry_point
  bodies : s.Closed d bin

/-- When a call keeps the list consistent: a listed start that is to be added is found as such. -/
def DiscoveryCall.Careful (bin : E9Binary) (s : FunctionList) : DiscoveryCall → Prop
  | .add addr _ => s.Clear addr
  | .discover => (∀ sym ∈ bin.symbols, sym.type = .FUNCTION → s.Clear sym.address) ∧ ScansInside bin

variable (d bin) in
/-- The condition holds of each call, in the state before it. -/
def CarefulRun (steps fuel scan : Nat) : List DiscoveryCall → FunctionList → Prop
  | [], _ => True
  | call :: calls, s =>
    call.Careful bin s ∧ ∀ t, call.step d bin steps fuel scan s = .ok t → CarefulRun steps fuel scan calls t

section
variable {steps fuel scan : Nat} {s : FunctionList}

theorem functions_discover_spec (hsteps : 2 ^ 65 < steps) (hfuel : 2 ^ 64 < fuel) (hscan : 2 ^ 64 < scan)
    (hentry : bin.entry_point < 2 ^ 64) (hs : s.Good d bin) (hcareful : DiscoveryCall.discover.Careful bin s) :
    ∃ t, e9_functions_discover d bin steps fuel scan s = .ok t ∧ t.Good d bin ∧ t.Complete d bin := by
  obtain ⟨hgood, -, hsymbols⟩ := discoverSymbols_spec hs hcareful.1
  obtain ⟨u, hu, hgrows, hgood', hcovers⟩ :=
    discoverIf_spec hsteps hfuel (decide (bin.entry_point ≠ 0)) hgood hentry
  unfold e9_functions_discover
  dsimp only
  rw [hu, ok_bind]
  have hcomplete : ∀ {t : FunctionList}, u.Grows t → t.Good d bin → t.Complete d bin := fun hmore hlast =>
    ⟨fun sym hsym htype => (hsymbols sym hsym htype).grows (hgrows.trans hmore),
      fun hne => (hcovers (decide_eq_true hne)).grows hmore, hlast.closed⟩
  by_cases hraw : bin.format = .RAW
  · rw [if_pos hraw]
    exact ⟨u, rfl, hgood', hcomplete (.refl u) hgood'⟩
  · rw [if_neg hraw]
    obtain ⟨t, ht, hmore, hlast⟩ := heuristic_spec hsteps hfuel hscan (hcareful.2.resolve_left hraw) hgood'
    exact ⟨t, ht, hlast, hcomplete hmore hlast⟩

/-- One call. -/
theorem call_spec (hsteps : 2 ^ 65 < steps) (hfuel : 2 ^ 64 < fuel) (hscan : 2 ^ 64 < scan)
    (hentry : bin.entry_point < 2 ^ 64) (hs : s.Good d bin) {call : DiscoveryCall} (hcareful : call.Careful bin s) :
    ∃ t, call.step d bin steps fuel scan s = .ok t ∧ t.Good d bin ∧ (call = .discover → t.Complete d bin) := by
  cases call with
  | discover =>
      obtain ⟨t, ht, hgood, hcomplete⟩ := functions_discover_spec hsteps hfuel hscan hentry hs hcareful
      exact ⟨t, ht, hgood, fun _ => hcomplete⟩
  | add addr name => exact ⟨_, rfl, (function_add_good hs hcareful).1, nofun⟩

theorem run_spec (hsteps : 2 ^ 65 < steps) (hfuel : 2 ^ 64 < fuel) (hscan : 2 ^ 64 < scan)
    (hentry : bin.entry_point < 2 ^ 64) {calls : List DiscoveryCall} (hs : s.Good d bin)
    (hcareful : CarefulRun d bin steps fuel scan calls s) :
    ∃ t, discoveryRun d bin steps fuel scan calls s = .ok t ∧ t.Good d bin ∧
      (calls.getLast? = some .discover → t.Complete d bin) := by
  induction calls generalizing s with
  | nil => exact ⟨s, rfl, hs, nofun⟩
  | cons call calls ih =>
      obtain ⟨hcall, hrest⟩ := hcareful
      obtain ⟨u, hu, hgood, hcomplete⟩ := call_spec hsteps hfuel hscan hentry hs hcall
      obtain ⟨t, ht, hgood', hcomplete'⟩ := ih hgood (hrest u hu)
      refine ⟨t, ?_, hgood', fun hlast => ?_⟩
      · unfold discoveryRun
        rw [hu, ok_bind, ht]
      · cases calls with
        | nil =>
            cases ht
            exact hcomplete (Option.some.inj hlast)
        | cons next calls =>
            rw [List.getLast?_cons_cons] at hlast
            exact hcomplete' hlast

theorem good_empty : FunctionList.empty.Good d bin := ⟨⟨List.Pairwise.nil, rfl⟩, nofun⟩

/-- In a run in which no addition finds another function than the listed one, every call ends, the starts of the
functions are distinct, the counter counts them, and a discovery leaves nothing uncovered. -/
theorem discovery_consistent (hsteps : 2 ^ 65 < steps) (hfuel : 2 ^ 64 < fuel) (hscan : 2 ^ 64 < scan)
    (hentry : bin.entry_point < 2 ^ 64) {calls : List DiscoveryCall}
    (hcareful : CarefulRun d bin steps fuel scan calls .empty) :
    ∃ t, discoveryRun d bin steps fuel scan calls .empty = .ok t ∧ t.Consistent ∧
      (calls.getLast? = some .discover → t.Complete d bin) := by
  obtain ⟨t, ht, hgood, hcomplete⟩ := run_spec hsteps hfuel hscan hentry good_empty hcareful
  exact ⟨t, ht, hgood.consistent, hcomplete⟩

end

/-- An addition keeps the starts distinct only where the address is clear. -/
theorem function_add_consistent_iff {s : FunctionList} (hs : s.Good d bin) (addr : Nat) (name : Option (List UInt8)) :
    (e9_function_add s addr name).1.Consistent ↔ s.Clear addr := by
  refine ⟨fun hconsistent => ?_, fun hclear => (function_add_good hs hclear).1.consistent⟩
  rintro ⟨func, hfunc, rfl⟩
  have hcovers : (e9_function_at s.functions func.address).isSome :=
    FunctionList.isSome_function_at.mpr ⟨func, hfunc, by simp [E9Function.holds]⟩
  obtain ⟨found, hfound⟩ := Option.isSome_iff_exists.mp hcovers
  refine ⟨found, hfound, ?_⟩
  by_contra hother
  obtain ⟨hholds, i, hi, hget, hbefore⟩ := List.find?_eq_some_iff_getElem.mp hfound
  have hidx : s.functions.findIdx? (·.holds func.address) = some i :=
    List.findIdx?_eq_some_iff_getElem.mpr ⟨hi, hget ▸ hholds, fun j hj => by simpa using hbefore j hj⟩
  have hpush : (e9_function_add s func.address name).1 = s.push func.address name := by
    unfold e9_function_add
    rw [hidx]
    dsimp only
    rw [List.getElem?_eq_getElem hi, Option.map_some, hget, if_neg fun heq => hother (Option.some.inj heq)]
    rfl
  have hdistinct := hconsistent.distinct
  rw [hpush, FunctionList.starts_eq, FunctionList.spans_push, List.map_cons, ← FunctionList.starts_eq] at hdistinct
  exact (List.nodup_cons.mp hdistinct).1 (List.mem_map_of_mem hfunc)

/-- An ELF header of an x86-64 program, and its code at the entry 0x40: `nop`, `nop` and `ret`. -/
def elfCode : Block :=
  ⟨[0x7F, 0x45, 0x4C, 0x46, 2, 1, 1, 0, 0, 0, 0, 0, 0, 0, 0, 0, 2, 0, 0x3E, 0, 1, 0, 0, 0, 0x40, 0, 0, 0, 0, 0, 0, 0,
    0, 0, 0, 0, 0, 0, 0, 0, 0, 0, 0, 0, 0, 0, 0, 0, 0, 0, 0, 0, 0x40, 0, 0x38, 0, 0, 0, 0x40, 0, 0, 0, 0, 0,
    0x90, 0x90, 0xC3], show 67 < 2 ^ 63 by decide⟩

def elfBinary : E9Binary := { E9Binary.zero with arch := .X86_64, format := .ELF, entry_point := 0x40 }

theorem elfCode_detected (alloc : AnalysisAllocator) : e9_binary_detect elfCode alloc E9Binary.zero = .ok (0, elfBinary) := by
  rfl

theorem elf_discovered : ∃ t, discoveryRun elfCode elfBinary (2 ^ 65 + 1) (2 ^ 64 + 1) (2 ^ 64 + 1) [.discover] .empty = .ok t ∧
    t.Consistent ∧ ([DiscoveryCall.discover].getLast? = some .discover → t.Complete elfCode elfBinary) :=
  discovery_consistent (by decide) (by decide) (by decide) (by decide) ⟨⟨nofun, Or.inr nofun⟩, fun _ _ => trivial⟩

/-- An address that is added, found inside the entry function and added again is listed twice. -/
theorem listed_twice : ¬∀ (d : Block) (alloc : AnalysisAllocator) (r : Int) (bin : E9Binary),
    e9_binary_detect d alloc E9Binary.zero = .ok (r, bin) → ∀ (calls : List DiscoveryCall) (steps fuel scan : Nat)
      (t : FunctionList), discoveryRun d bin steps fuel scan calls .empty = .ok t → t.Consistent := by
  intro h
  have hrun : discoveryRun elfCode elfBinary 4 2 1 [.add 0x41 none, .discover, .add 0x41 none] .empty =
      .ok ⟨[.start 0x41 none, ⟨none, 0x40, 0x43, 3, none, none⟩, .start 0x41 none], 3⟩ := by decide
  have hdistinct := (h elfCode ⟨true, fun _ => true, fun _ => true⟩ 0 elfBinary (elfCode_detected _) _ _ _ _ _ hrun).distinct
  exact absurd hdistinct (by decide)

end E9Patch
