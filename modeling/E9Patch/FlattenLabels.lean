import E9Patch.FlattenLayout
import E9Patch.PatchTheorems

/-!
The labels of a trampoline. `marks` notes what the pass for the bytes comes by: a label, with the address of
the byte that is pushed next, and the address at which it begins the next instruction of a batch. Where the
template has a layout, that is what the pass for the labels has recorded.
-/

namespace E9Patch
open Bytes Binary Fallible

/-! ### What the pass for the bytes comes by -/

/-- Labels and breaks, the latest first. -/
structure Marks where
  labels : LabelSet
  breaks : BreakInfo
  deriving DecidableEq, Repr

section
variable {α : Type}

/-- What is noted at an entry, or at those of a macro. -/
def entryMet (B : Binary) (note : Entry → Option Nat → Buffer → Except Fault (List α))
    (rec : Trampoline → Option Nat → Bool → Buffer → Except Fault (List α)) (last : Bool) (entry : Entry)
    (I : Option Nat) (buf : Buffer) : Except Fault (List α) :=
  match entry with
  | .MACRO name => do
    let J ← deref I
    let U ← deref (expandMacro B (B.Is J).metadata name)
    rec U I last buf
  | entry => note entry I buf

def entriesMet (B : Binary) (note : Entry → Option Nat → Buffer → Except Fault (List α))
    (recB : Trampoline → Option Nat → Bool → Buffer → Except Fault Buffer)
    (rec : Trampoline → Option Nat → Bool → Buffer → Except Fault (List α)) (base : Int) (last : Bool)
    (breaks : BreakInfo) (labels : LabelSet) : List Entry → Option Nat → Buffer → Except Fault (List α)
  | [], _, _ => .ok []
  | entry :: entries, I, buf => do
    let met ← entryMet B note rec last entry I buf
    let r ← entryBytes B recB base last breaks labels entry entries.isEmpty I buf
    let more ← entriesMet B note recB rec base last breaks labels entries r.1 r.2
    .ok (more ++ met)

/-- What is noted of the entries that `buildBytes` comes by, the latest first. -/
def met (B : Binary) (note : Entry → Option Nat → Buffer → Except Fault (List α)) (base : Int) (breaks : BreakInfo)
    (labels : LabelSet) : Nat → Trampoline → Option Nat → Bool → Buffer → Except Fault (List α)
  | 0, _, _, _, _ => .error .null
  | fuel + 1, T, I, last, buf =>
    entriesMet B note (buildBytes B base breaks labels fuel) (met B note base breaks labels fuel) base last breaks
      labels T.entries I buf

/-- The same for a member of a batch. -/
def ownMet (B : Binary) (note : Entry → Option Nat → Buffer → Except Fault (List α)) (base : Int) (breaks : BreakInfo)
    (labels : LabelSet) (buf : Buffer) (I : Nat) (last : Bool) : Except Fault (List α) :=
  match (B.Is I).T with
  | some T => met B note base breaks labels MACRO_DEPTH_MAX T (some I) last buf
  | none => .ok []

end

/-- A label is noted with the address of the next byte. -/
def noteLabel (B : Binary) (base : Int) : Entry → Option Nat → Buffer → Except Fault LabelSet
  | .LABEL label, I, buf => do
    let J ← deref I
    .ok [(((B.Is J).addr, label), base + buf.size)]
  | _, _, _ => .ok []

/-- The pass for the bytes over a member of a batch, with what it comes by. -/
def memberMarks (B : Binary) (base : Int) (breaks : BreakInfo) (labels : LabelSet) (s : Buffer × Marks) (I : Nat)
    (last : Bool) : Except Fault (Option (Buffer × Marks)) := do
  let met ← ownMet B (noteLabel B base) base breaks labels s.1 I last
  match ← memberBytes B (buildBytes B base breaks labels MACRO_DEPTH_MAX) base s.1 I last with
  | none => .ok none
  | some buf =>
    .ok (some (buf, ⟨met ++ s.2.labels,
      if last then s.2.breaks else ((B.Is I).addr, base + buf.size) :: s.2.breaks⟩))

/-- What the pass for the bytes comes by in a trampoline. -/
def marks (B : Binary) (base : Int) (breaks : BreakInfo) (labels : LabelSet) (T : Trampoline) (I : Option Nat)
    (buf : Buffer) : Except Fault Marks :=
  match T with
  | .batch stop => do
    match ← batchLoop B stop (memberMarks B base breaks labels) (B.count + 1) (buf, ⟨[], []⟩) none I with
    | none => .error .null
    | some (s, _, _) => .ok s.2
  | T => (met B (noteLabel B base) base breaks labels (MACRO_DEPTH_MAX + 1) T I true buf).map fun met => ⟨met, []⟩

/-! ### The layout of a trampoline -/

def placeMember (B : Binary) (limit : Int) (pos : Int) (I : Nat) (last : Bool) : Except Fault (Option Int) :=
  match (B.Is I).T with
  | some T => (placeCode B limit MACRO_DEPTH_MAX T (some I) last pos).map some
  | none => (placeCopy B limit I pos).map some

/-- The end of the code of a trampoline; that of a batch is the end of its last member, as no label stands
behind. -/
def layout (B : Binary) (limit : Int) (T : Trampoline) (I : Option Nat) (pos : Int) : Except Fault Int :=
  match T with
  | .batch stop => do
    match ← batchLoop B stop (placeMember B limit) (B.count + 1) pos none I with
    | none => .error .null
    | some (e, _, _) => .ok e
  | T => placeCode B limit (MACRO_DEPTH_MAX + 1) T I true pos

/-! ### Templates -/

/-- A label belongs to one place only. -/
def LabelSet.Distinct (labels : LabelSet) : Prop := (labels.map (·.1)).Nodup

theorem LabelSet.Distinct.find {labels : LabelSet} (h : labels.Distinct) {addr p : Int} {name : String}
    (hmem : ((addr, name), p) ∈ labels) : LabelSet.find labels addr name = some p := by
  unfold LabelSet.Distinct at h
  unfold LabelSet.find
  induction labels with
  | nil => cases hmem
  | cons l labels ih =>
      rw [List.map_cons, List.nodup_cons] at h
      rcases List.mem_cons.mp hmem with rfl | hmem
      · simp
      · have hne : l.1 ≠ (addr, name) := fun heq => h.1 (heq ▸ List.mem_map_of_mem hmem)
        rw [List.find?_cons_of_neg (by simpa using hne)]
        exact ih h.2 hmem

theorem LabelSet.Distinct.cons {labels : LabelSet} (h : labels.Distinct) {addr p : Int} {name : String}
    (hnew : LabelSet.find labels addr name = none) : LabelSet.Distinct (((addr, name), p) :: labels) := by
  refine List.nodup_cons.mpr ⟨fun hmem => ?_, h⟩
  obtain ⟨⟨l, q⟩, hl, heq⟩ := List.mem_map.mp hmem
  obtain rfl : l = (addr, name) := heq
  rw [h.find hl] at hnew
  cases hnew

/-- The pass for the labels records the labels that were met, and no breaks. -/
structure Records (a a' : LabelPass) (met : LabelSet) : Prop where
  labels : a'.labels = met ++ a.labels
  breaks : a'.breaks = a.breaks
  distinct : LabelSet.Distinct a.labels → LabelSet.Distinct a'.labels

theorem Records.advance (a : LabelPass) (n : Int) : Records a (a.advance n) [] := ⟨rfl, rfl, id⟩

theorem Records.trans {a a' a'' : LabelPass} {met more : LabelSet} (h : Records a a' met) (h' : Records a' a'' more) :
    Records a a'' (more ++ met) := by
  refine ⟨?_, h'.breaks.trans h.breaks, fun hd => h'.distinct (h.distinct hd)⟩
  rw [h'.labels, h.labels, List.append_assoc]

section
variable {B : Binary} {base : Int} {breaks : BreakInfo} {labels : LabelSet} {buf buf' : Buffer} {a a' : LabelPass}

theorem entryMet_records {recL : Trampoline → Option Nat → Bool → LabelPass → Except Fault LabelPass}
    {recB : Trampoline → Option Nat → Bool → Buffer → Except Fault Buffer}
    {rec : Trampoline → Option Nat → Bool → Buffer → Except Fault LabelSet}
    {recP : Trampoline → Option Nat → Bool → Int → Except Fault Int} {last isLast : Bool} {entry : Entry}
    {I I₁ I₂ : Option Nat} {limit e : Int}
    (hrec : ∀ {T last a' buf' e}, recP T I last (base + buf.size) = .ok e → recL T I last a = .ok a' →
      recB T I last buf = .ok buf' → ∃ met, rec T I last buf = .ok met ∧ Records a a' met)
    (haddr : a.addr = base + buf.size) (hp : placeEntry B recP limit last entry isLast I (base + buf.size) = .ok e)
    (hl : entryLabels B recL last entry isLast I a = .ok (I₁, a'))
    (hb : entryBytes B recB base last breaks labels entry isLast I buf = .ok (I₂, buf')) :
    ∃ met, entryMet B (noteLabel B base) rec last entry I buf = .ok met ∧ Records a a' met := by
  cases entry with
  | DEBUG | BYTES bytes | ZEROES length | INT8 value | INT16 value | INT32 value | INT64 value | REL8 value
  | REL32 value | TAKE =>
      cases hl
      exact ⟨[], rfl, .advance a _⟩
  | LABEL label =>
      obtain ⟨J, hJ, hl⟩ := bind_ok.mp hl
      refine ⟨[(((B.Is J).addr, label), base + buf.size)], bind_ok.mpr ⟨J, hJ, rfl⟩, ?_⟩
      split at hl
      · cases hl
      · rename_i hnew
        cases hl
        exact ⟨by rw [haddr]; rfl, rfl, fun hd => hd.cons hnew⟩
  | MACRO name =>
      obtain ⟨J, hJ, hp⟩ := bind_ok.mp hp
      obtain ⟨U, hU, hp⟩ := bind_ok.mp hp
      obtain ⟨J₁, hJ₁, hl⟩ := bind_ok.mp hl
      obtain ⟨J₂, hJ₂, hb⟩ := bind_ok.mp hb
      obtain rfl : J = J₁ := Except.ok.inj (hJ.symm.trans hJ₁)
      obtain rfl : J = J₂ := Except.ok.inj (hJ.symm.trans hJ₂)
      rw [deref_ok.mp hU] at hl hb
      obtain ⟨a₁, ha₁, hl⟩ := bind_ok.mp hl
      obtain ⟨buf₁, hbuf₁, hb⟩ := bind_ok.mp hb
      cases hl
      obtain ⟨met, hmet, hr⟩ := hrec hp ha₁ hbuf₁
      exact ⟨met, bind_ok.mpr ⟨J, hJ, bind_ok.mpr ⟨U, hU, hmet⟩⟩, hr⟩
  | INSTR | INSTR_BYTES =>
      obtain ⟨J, -, hl⟩ := bind_ok.mp hl
      cases hl
      exact ⟨[], rfl, .advance a _⟩
  | BREAK optimize =>
      obtain ⟨J, -, hl⟩ := bind_ok.mp hl
      obtain ⟨r, -, hl⟩ := bind_ok.mp hl
      cases hl
      exact ⟨[], rfl, .advance a _⟩
  | BATCH stop => cases hp

/-- In a template that has a layout, the labels are recorded at the addresses where they are met. -/
theorem met_records (hw : WellFormed B) {fuel : Nat} {T : Trampoline} {I : Option Nat} {last : Bool} {e : Int}
    (hI : ∀ k ∈ I, k < B.count) (haddr : a.addr = base + buf.size)
    (hp : placeCode B (base + buf.max) fuel T I last (base + buf.size) = .ok e)
    (hl : buildLabelSet B fuel T I last a = .ok a')
    (hb : buildBytes B base breaks labels fuel T I last buf = .ok buf') :
    ∃ ms, met B (noteLabel B base) base breaks labels fuel T I last buf = .ok ms ∧ Records a a' ms := by
  induction fuel generalizing T last a a' buf buf' e with
  | zero => cases hl
  | succ fuel ih =>
      unfold placeCode at hp
      unfold buildLabelSet at hl
      unfold buildBytes at hb
      unfold met
      generalize T.entries = entries at hp hl hb
      induction entries generalizing a buf with
      | nil =>
          cases hl
          exact ⟨[], rfl, rfl, rfl, id⟩
      | cons entry entries ihe =>
          obtain ⟨pos, hpos, hprest⟩ := bind_ok.mp hp
          obtain ⟨⟨I₁, a₁⟩, hentryL, hlrest⟩ := bind_ok.mp hl
          obtain ⟨⟨I₂, buf₁⟩, hentryB, hbrest⟩ := bind_ok.mp hb
          obtain ⟨met, hmet, hr⟩ := entryMet_records (fun hT hTl hTb => ih haddr hT hTl hTb) haddr hpos hentryL hentryB
          have hposL := hpos
          rw [← haddr] at hposL
          obtain ⟨rfl, hend⟩ := entryLabels_follows hw hI (buildLabelSet_follows hw hI) hposL hentryL
          obtain ⟨rfl, hendB⟩ := entryBytes_follows hw hI (buildBytes_follows hw hI) hpos hentryB
          have hmax := (entryBytes_grows (fun hT => buildBytes_grows hT) hentryB).max
          rw [hendB] at hend
          rw [← hmax, hendB] at hprest
          obtain ⟨more, hmore, hr'⟩ := ihe hend hprest hlrest hbrest
          exact ⟨more ++ met, bind_ok.mpr ⟨met, hmet, bind_ok.mpr ⟨(_, buf₁), hentryB, bind_ok.mpr ⟨more, hmore, rfl⟩⟩⟩,
            hr.trans hr'⟩

/-! ### Batches -/

/-- The three passes over one member of a batch, at the same address. -/
theorem memberMarks_records (hw : WellFormed B) {K : Nat} {last : Bool} {pos : Int} (hK : K < B.count)
    (haddr : a.addr = base + buf.size) (hnew : a.breaks.find (B.Is K).addr = none)
    (hp : placeMember B (base + buf.max) (base + buf.size) K last = .ok (some pos))
    (hl : memberLabels B (buildLabelSet B MACRO_DEPTH_MAX) a K last = .ok (some a'))
    (hb : memberBytes B (buildBytes B base breaks labels MACRO_DEPTH_MAX) base buf K last = .ok (some buf')) :
    memberMarks B base breaks labels (buf, ⟨a.labels, a.breaks⟩) K last =
        .ok (some (buf', ⟨a'.labels, a'.breaks⟩)) ∧
      a'.addr = base + buf'.size ∧ pos = base + buf'.size ∧ buf'.max = buf.max ∧
      a'.breaks = (if last then a.breaks else ((B.Is K).addr, base + buf'.size) :: a.breaks) ∧
      (LabelSet.Distinct a.labels → LabelSet.Distinct a'.labels) := by
  have hI : ∀ k ∈ some K, k < B.count := by
    intro k hk
    cases hk
    exact hK
  have hmax := (memberBytes_grows (fun hT => buildBytes_grows hT) hb).max
  -- the pass for the labels, up to the break
  obtain ⟨a₁, met, hmet, hr, hend, hpos, hlast⟩ : ∃ a₁ met, ownMet B (noteLabel B base) base breaks labels buf K last = .ok met ∧
      Records a a₁ met ∧ a₁.addr = base + buf'.size ∧ pos = base + buf'.size ∧
      a' = if last then a₁ else { a₁ with breaks := a₁.breaks.insert (B.Is K).addr a₁.addr } := by
    unfold ownMet
    cases hT : (B.Is K).T with
    | some T =>
        simp only [placeMember, hT, map_ok] at hp
        simp only [memberLabels, hT] at hl
        simp only [memberBytes, hT] at hb
        obtain ⟨e, he, heq⟩ := hp
        obtain rfl : e = pos := Option.some.inj heq
        obtain ⟨a₁, ha₁, hl⟩ := bind_ok.mp hl
        obtain ⟨buf₁, hbuf₁, hb⟩ := bind_ok.mp hb
        cases hb
        obtain ⟨met, hmet, hr⟩ := met_records hw hI haddr he ha₁ hbuf₁
        have hbytes := buildBytes_follows hw hI he hbuf₁
        rw [← haddr] at he
        have hlabels := buildLabelSet_follows hw hI he ha₁
        exact ⟨a₁, met, hmet, hr, hlabels.trans hbytes, hbytes, (Option.some.inj (Except.ok.inj hl)).symm⟩
    | none =>
        simp only [placeMember, hT, map_ok] at hp
        simp only [memberLabels, hT] at hl
        simp only [memberBytes, hT] at hb
        obtain ⟨e, he, heq⟩ := hp
        obtain rfl : e = pos := Option.some.inj heq
        have hsize := (hw.size K hK).2
        obtain ⟨code, hcode, hcopy⟩ := placeCopy_copies hsize he
        rw [hcopy, if_neg (by simp only; omega)] at hb
        obtain rfl : buf.push code = buf' := Option.some.inj (Except.ok.inj hb)
        obtain ⟨⟨hreloc, -⟩, hsum⟩ := placeCopy_ok.mp he
        refine ⟨a.advance (relocateLength B K a.addr), [], rfl, .advance a _, ?_, hcode,
          (Option.some.inj (Except.ok.inj hl)).symm⟩
        rw [LabelPass.advance_addr, haddr, (copySize_eq hsize hreloc).1, ← hsum, hcode]
  have hbreaks : a'.breaks = if last then a.breaks else ((B.Is K).addr, base + buf'.size) :: a.breaks := by
    rw [hlast]
    cases last with
    | true => exact hr.breaks
    | false =>
        simp only [Bool.false_eq_true, if_false]
        rw [hr.breaks, hend]
        unfold BreakInfo.insert
        rw [hnew]
  have hsame : a'.labels = a₁.labels ∧ a'.addr = a₁.addr := by
    rw [hlast]
    split <;> exact ⟨rfl, rfl⟩
  refine ⟨?_, hsame.2.trans hend, hpos, hmax, hbreaks, fun hd => by rw [hsame.1]; exact hr.distinct hd⟩
  unfold memberMarks
  rw [hmet, hb, hbreaks, hsame.1, hr.labels]
  rfl

/-- The three passes over a batch, member by member. -/
theorem batchMarks_records (hw : WellFormed B) {stop pos e : Int} {fuel : Nat} {I J J₁ I₁ J₂ I₂ J₃ I₃ : Option Nat}
    (hI : ∀ k ∈ I, k < B.count) (haddr : a.addr = base + buf.size) (hpos : pos = base + buf.size)
    (hkeys : ∀ b ∈ a.breaks, ∀ k ∈ I, b.1 < (B.Is k).addr)
    (hp : batchLoop B stop (placeMember B (base + buf.max)) fuel pos J I = .ok (some (e, J₁, I₁)))
    (hl : batchLoop B stop (memberLabels B (buildLabelSet B MACRO_DEPTH_MAX)) fuel a J I = .ok (some (a', J₂, I₂)))
    (hb : batchLoop B stop (memberBytes B (buildBytes B base breaks labels MACRO_DEPTH_MAX) base) fuel buf J I =
      .ok (some (buf', J₃, I₃))) :
    batchLoop B stop (memberMarks B base breaks labels) fuel (buf, ⟨a.labels, a.breaks⟩) J I =
        .ok (some ((buf', ⟨a'.labels, a'.breaks⟩), J₃, I₃)) ∧
      (LabelSet.Distinct a.labels → LabelSet.Distinct a'.labels) := by
  induction fuel generalizing a buf pos J I with
  | zero =>
      cases hl
      cases hb
      exact ⟨rfl, id⟩
  | succ fuel ih =>
      unfold batchLoop at hp hl hb ⊢
      cases I with
      | none =>
          cases hl
          cases hb
          exact ⟨rfl, id⟩
      | some K =>
          simp only at hp hl hb ⊢
          by_cases hstop : (B.Is K).addr > stop
          · rw [if_pos hstop] at hp hl hb ⊢
            cases hl
            cases hb
            exact ⟨rfl, id⟩
          · rw [if_neg hstop] at hp hl hb ⊢
            obtain ⟨op, hop, hp⟩ := bind_ok.mp hp
            obtain ⟨ol, hol, hl⟩ := bind_ok.mp hl
            obtain ⟨ob, hob, hb⟩ := bind_ok.mp hb
            cases op with
            | none => cases hp
            | some pos₁ =>
            cases ol with
            | none => cases hl
            | some a₁ =>
            cases ob with
            | none => cases hb
            | some buf₁ =>
            have hK := hI K rfl
            have hnew : a.breaks.find (B.Is K).addr = none := by
              unfold BreakInfo.find
              rw [Option.map_eq_none_iff, List.find?_eq_none]
              intro b hb
              have := hkeys b hb K rfl
              simp only [decide_eq_true_eq]
              omega
            rw [hpos] at hop
            obtain ⟨hmarks, hend, hpos₁, hmax, hbreaks, hdist⟩ := memberMarks_records hw hK haddr hnew hop hol hob
            rw [← hmax] at hp
            have hkeys₁ : ∀ b ∈ a₁.breaks, ∀ k ∈ B.next K, b.1 < (B.Is k).addr := by
              intro b hmem k hk
              obtain ⟨rfl, -⟩ := next_some hw hk
              have hlt := hw.addr_lt (Nat.lt_succ_self k) hK
              rw [hbreaks] at hmem
              split at hmem
              · exact Int.lt_trans (hkeys b hmem _ rfl) hlt
              · rcases List.mem_cons.mp hmem with rfl | hmem
                · exact hlt
                · exact Int.lt_trans (hkeys b hmem _ rfl) hlt
            obtain ⟨hrun, hd⟩ := ih (fun k hk => (next_some hw hk).2) hend hpos₁ hkeys₁ hp hl hb
            exact ⟨bind_ok.mpr ⟨_, hmarks, hrun⟩, fun h => hd (hdist h)⟩

theorem batchLoop_some {α : Type} {stop : Int} {body : α → Nat → Bool → Except Fault (Option α)}
    (hbody : ∀ a I last, body a I last ≠ .ok none) {fuel : Nat} {a : α} {J I : Option Nat} :
    batchLoop B stop body fuel a J I ≠ .ok none := by
  induction fuel generalizing a J I with
  | zero => exact nofun
  | succ fuel ih =>
      intro h
      unfold batchLoop at h
      split at h
      · cases h
      split at h
      · cases h
      obtain ⟨o, ho, h⟩ := bind_ok.mp h
      cases o with
      | none => exact hbody _ _ _ ho
      | some b => exact ih h

theorem memberLabels_some {rec : Trampoline → Option Nat → Bool → LabelPass → Except Fault LabelPass} (a : LabelPass)
    (I : Nat) (last : Bool) : memberLabels B rec a I last ≠ .ok none := by
  intro h
  unfold memberLabels at h
  cases hT : (B.Is I).T with
  | some T =>
      simp only [hT] at h
      obtain ⟨a₁, -, h⟩ := bind_ok.mp h
      cases h
  | none =>
      simp only [hT] at h
      cases h

theorem memberBytes_some {rec : Trampoline → Option Nat → Bool → Buffer → Except Fault Buffer} (buf : Buffer)
    (I : Nat) (last : Bool) : memberBytes B rec base buf I last ≠ .ok none := by
  intro h
  unfold memberBytes at h
  split at h
  · obtain ⟨buf₁, -, h⟩ := bind_ok.mp h
    cases h
  · simp only at h
    split at h <;> cases h

/-- The loop of the pass for the labels, in the trampoline of a batch. -/
theorem buildLabelSet_batch {stop : Int} {I : Option Nat} {fuel : Nat}
    (h : buildLabelSet B (fuel + 1) (.batch stop) I true a = .ok a') :
    ∃ a₁ J K, batchLoop B stop (memberLabels B (buildLabelSet B fuel)) (B.count + 1) a none I =
      .ok (some (a₁, J, K)) ∧ a'.labels = a₁.labels ∧ a'.breaks = a₁.breaks := by
  obtain ⟨⟨I₁, a₁⟩, hentry, hnil⟩ := bind_ok.mp h
  cases hnil
  obtain ⟨o, ho, h⟩ := bind_ok.mp hentry
  cases o with
  | none => exact absurd ho (batchLoop_some memberLabels_some)
  | some o =>
      obtain ⟨a₁, J, K⟩ := o
      refine ⟨a₁, J, K, ho, ?_⟩
      obtain ⟨J', -, h⟩ := bind_ok.mp h
      split at h
      · obtain ⟨r, -, h⟩ := bind_ok.mp h
        cases h
        exact ⟨rfl, rfl⟩
      · cases h
        exact ⟨rfl, rfl⟩

/-- The loop of the pass for the bytes, and the break behind a last member without a template. -/
theorem buildBytes_batch {stop : Int} {I : Option Nat} {fuel : Nat}
    (h : buildBytes B base breaks labels (fuel + 1) (.batch stop) I true buf = .ok buf') :
    ∃ buf₁ J K, batchLoop B stop (memberBytes B (buildBytes B base breaks labels fuel) base) (B.count + 1) buf none I =
        .ok (some (buf₁, some J, K)) ∧
      if (B.Is J).T = none then
        ∃ r, buildBreak B J (base + buf₁.size) false true .BYTES breaks buf₁ = .ok r ∧ buf' = r.2
      else buf' = buf₁ := by
  obtain ⟨⟨I₁, buf₁⟩, hentry, hnil⟩ := bind_ok.mp h
  cases hnil
  obtain ⟨o, ho, h⟩ := bind_ok.mp hentry
  cases o with
  | none => exact absurd ho (batchLoop_some memberBytes_some)
  | some o =>
      obtain ⟨buf₁, J, K⟩ := o
      obtain ⟨J', hJ, htail⟩ := bind_ok.mp h
      obtain rfl := deref_ok.mp hJ
      refine ⟨buf₁, J', K, ho, ?_⟩
      split at htail
      · rename_i hT
        obtain ⟨r, hr, htail⟩ := bind_ok.mp htail
        cases htail
        rw [if_pos hT]
        exact ⟨r, hr, rfl⟩
      · rename_i hT
        cases htail
        rw [if_neg hT]

end

/-- In a trampoline that has a layout, each label is recorded once, at the address where the pass for the bytes comes
by it, and each break at the address where that pass begins the next instruction of the batch. -/
theorem marks_recorded {B : Binary} (hw : WellFormed B) {T : Trampoline} {I : Option Nat} {base e : Int} {size : Nat}
    {a : LabelPass} {buf : Buffer} (hI : ∀ k ∈ I, k < B.count) (hp : layout B (base + size) T I base = .ok e)
    (hl : buildLabelSet B (MACRO_DEPTH_MAX + 1) T I true ⟨base, [], []⟩ = .ok a)
    (hb : buildBytes B base a.breaks a.labels (MACRO_DEPTH_MAX + 1) T I true ⟨[], size⟩ = .ok buf) :
    marks B base a.breaks a.labels T I ⟨[], size⟩ = .ok ⟨a.labels, a.breaks⟩ ∧ a.labels.Distinct := by
  have hstart : (⟨base, [], []⟩ : LabelPass).addr = base + (⟨[], size⟩ : Buffer).size := (Int.add_zero base).symm
  have hplain : ∀ (hT : placeCode B (base + size) (MACRO_DEPTH_MAX + 1) T I true base = .ok e),
      ∃ ms, met B (noteLabel B base) base a.breaks a.labels (MACRO_DEPTH_MAX + 1) T I true ⟨[], size⟩ = .ok ms ∧
        Records ⟨base, [], []⟩ a ms := by
    intro hT
    refine met_records hw hI hstart (e := e) ?_ hl hb
    rw [← hstart]
    exact hT
  have hempty : LabelSet.Distinct (⟨base, [], []⟩ : LabelPass).labels := List.nodup_nil
  cases T with
  | batch stop =>
      obtain ⟨o, ho, hp⟩ := bind_ok.mp hp
      cases o with
      | none => cases hp
      | some o =>
          obtain ⟨a₁, J₁, K₁, hloopL, hlabels, hbreaks⟩ := buildLabelSet_batch hl
          obtain ⟨buf₁, J₂, K₂, hloopB, -⟩ := buildBytes_batch hb
          obtain ⟨hrun, hd⟩ := batchMarks_records hw hI hstart (hstart ▸ rfl) nofun ho hloopL hloopB
          rw [hlabels, hbreaks]
          rw [hlabels, hbreaks] at hrun
          exact ⟨bind_ok.mpr ⟨_, hrun, rfl⟩, hd hempty⟩
  | evictee | user T =>
      obtain ⟨met, hmet, hr⟩ := hplain hp
      obtain rfl : a.labels = met := hr.labels.trans (List.append_nil met)
      refine ⟨map_ok.mpr ⟨a.labels, hmet, ?_⟩, hr.distinct hempty⟩
      rw [hr.breaks]

end E9Patch
