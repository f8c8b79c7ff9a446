import E9Patch.EntryPoints
import E9Patch.FlattenAll
import E9Patch.FailedRelocation

/-!
The entry points of prologues (`e9optimize.cpp`, `e9trampoline.cpp`). The start of a prologue is chosen once when
a trampoline is allocated and again when it is flattened; what is published then are the addresses of the copies,
from the start up to the patched instruction. The address that they count from is kept in 32 bits.
-/

namespace E9Patch
open Bytes Binary Fallible

/-! ### Copies -/

/-- The code is the relocated copy of `J` at `addr`. -/
def IsCopy (B : Binary) (J : Nat) (addr : Int) (code : List UInt8) : Prop :=
  relocateInstrTo B J addr ⟨[], UINT32_MAX⟩ = ((code.length : Int), ⟨code, UINT32_MAX⟩)

/-- The bytes are the copies of the instructions from `J` up to `I`, one behind another from `addr` to `stop`; each
instruction falls through to the next one. The list has the address of each copy. -/
inductive Copies (B : Binary) (I : Nat) : Nat → Int → List UInt8 → List (Nat × Int) → Int → Prop
  | nil (addr : Int) : Copies B I I addr [] [] addr
  | cons {J J' : Nat} {addr stop : Int} {code bytes : List UInt8} {entries : List (Nat × Int)} :
      FallsThrough B J J' → IsCopy B J addr code → Copies B I J' (addr + code.length) bytes entries stop →
      Copies B I J addr (code ++ bytes) ((J, addr) :: entries) stop

section
variable {B : Binary} {I J : Nat} {addr stop : Int} {bytes : List UInt8} {entries : List (Nat × Int)}

theorem Copies.stop_eq (h : Copies B I J addr bytes entries stop) : stop = addr + bytes.length := by
  induction h with
  | nil addr => simp
  | cons _ _ _ ih =>
      rw [ih, List.length_append]
      push_cast
      omega

/-- From the address of a copy on there are the copies of the rest. -/
theorem Copies.suffix (h : Copies B I J addr bytes entries stop) {P : Nat} {e : Int} (hP : (P, e) ∈ entries) :
    ∃ pre post es, bytes = pre ++ post ∧ e = addr + pre.length ∧ Copies B I P e post es stop := by
  induction h with
  | nil addr => cases hP
  | @cons J J' addr stop code bytes entries hfall hcopy hrest ih =>
      rcases List.mem_cons.mp hP with heq | hP
      · cases heq
        exact ⟨[], _, _, rfl, by simp, .cons hfall hcopy hrest⟩
      · obtain ⟨pre, post, es, rfl, rfl, hpost⟩ := ih hP
        refine ⟨code ++ pre, post, es, (List.append_assoc ..).symm, ?_, hpost⟩
        rw [List.length_append]
        push_cast
        omega

/-- A relocation that succeeds makes a copy. -/
theorem relocateInstrTo_copy {buf : Buffer} (hsize : 1 ≤ (B.Is J).size ∧ (B.Is J).size ≤ 15)
    (h : 0 ≤ (relocateInstrTo B J addr buf).1) :
    ∃ code, code ≠ [] ∧ IsCopy B J addr code ∧ relocateInstrTo B J addr buf = ((code.length : Int), buf.push code) := by
  have hbuilt := relocateTo_built addr hsize.2
  unfold IsCopy
  rw [relocateInstrTo_offset] at h ⊢
  obtain ⟨hok, heq⟩ := relocateInstr_ok h
  have hlen := hbuilt.length hok
  refine ⟨_, fun hnil => ?_, ?_, heq⟩
  · have := copyLength_pos hsize.1
    rw [hnil, List.length_nil] at hlen
    omega
  · have hle := copyLength_le hsize.2 (hbuilt.ok_iff.mp hok)
    unfold relocateInstr Buffer.commit
    simp only [hok, if_true, Buffer.size, Buffer.push, List.nil_append, hlen, UINT32_MAX]
    rw [if_neg (by omega)]
    simp

end

/-! ### The start of a prologue -/

section
variable {B : Binary} {I : Nat}

/-- The original code runs from `J` up to `I`, and all of it has entry points. -/
def RunsInto (B : Binary) (I J : Nat) : Prop :=
  ∀ m, I < m → m ≤ J → m < B.count ∧ FallsThrough B m (m - 1) ∧ B.Es.HasKey (B.Is m).addr

theorem RunsInto.refl (B : Binary) (I : Nat) : RunsInto B I I := fun _ h1 h2 => absurd h1 (Nat.not_lt.mpr h2)

/-- The entry points below an address, from the highest one down. -/
structure Below (Es : EntrySet) (addr : Int) (Gs : List (Int × EntryPoint)) : Prop where
  sorted : Gs.Pairwise fun E F => F.1 < E.1
  mem : ∀ F, F ∈ Gs ↔ F ∈ Es ∧ F.1 < addr

theorem Below.tail {Es : EntrySet} {addr : Int} {G : Int × EntryPoint} {Gs : List (Int × EntryPoint)}
    (h : Below Es addr (G :: Gs)) : Below Es G.1 Gs := by
  obtain ⟨hG, hGs⟩ := List.pairwise_cons.mp h.sorted
  refine ⟨hGs, fun F => ⟨fun hF => ?_, fun ⟨hF, hlt⟩ => ?_⟩⟩
  · exact ⟨((h.mem F).mp (List.mem_cons_of_mem _ hF)).1, hG F hF⟩
  · have hGlt := ((h.mem G).mp (List.mem_cons_self ..)).2
    rcases List.mem_cons.mp ((h.mem F).mpr ⟨hF, Int.lt_trans hlt hGlt⟩) with rfl | hF
    · exact absurd hlt (Int.lt_irrefl _)
    · exact hF

theorem below_filter {Es : EntrySet} (h : Es.Sorted) (addr : Int) :
    Below Es addr (Es.filter fun F => F.1 < addr).reverse := by
  refine ⟨?_, fun F => by simp⟩
  rw [List.pairwise_reverse]
  exact h.filter _

/-- The entry point right below that of `j` is for the instruction in front of it, if it belongs to the same
patched instruction. -/
theorem below_prologue (hw : WellFormed B) (hf : EntriesFollow B B.Es) {G : Int × EntryPoint}
    {Gs : List (Int × EntryPoint)} {j : Nat} (hIj : I ≤ j) (hj : j < B.count)
    (hbelow : Below B.Es (B.Is j).addr (G :: Gs)) (hG : G.2.I = I) :
    j + 1 < B.count ∧ G.1 = (B.Is (j + 1)).addr ∧ FallsThrough B (j + 1) j := by
  obtain ⟨hmem, hlt⟩ := (hbelow.mem G).mp (List.mem_cons_self ..)
  have hIaddr : (B.Is j).addr ≤ (B.Is I).addr := by
    rcases Nat.eq_or_lt_of_le hIj with rfl | hlt
    · exact Int.le_refl _
    · exact Int.le_of_lt (hw.addr_lt hlt hj)
  rcases (hf.entry G hmem).2 with hown | ⟨J₁, J₂, hJ₁, haddr, hfall, F, hF⟩
  · rw [hG] at hown
    omega
  obtain ⟨rfl, hJ₂, -⟩ := succ_some hw hfall.1
  have hlow : j ≤ J₂ := by
    by_contra hge
    rcases Nat.eq_or_lt_of_le (Nat.succ_le_of_lt (Nat.lt_of_not_le hge)) with heq | hlt'
    · rw [Nat.succ_eq_add_one] at heq
      rw [heq] at haddr
      omega
    · have := hw.addr_lt hlt' hj
      simp only [Nat.succ_eq_add_one] at this
      omega
  rcases Nat.eq_or_lt_of_le hlow with rfl | hlt'
  · exact ⟨hJ₁, haddr, hfall⟩
  · -- otherwise there is a higher one
    have h1 := hw.addr_lt hlt' hJ₂
    have h2 : (B.Is (J₂ + 1)).addr < (B.Is J₂).addr := hw.addr_lt (Nat.lt_succ_self J₂) hJ₁
    rcases List.mem_cons.mp ((hbelow.mem _).mpr ⟨hF, h1⟩) with heq | hFG
    · rw [← heq] at haddr
      simp only at haddr
      omega
    · have := (List.pairwise_cons.mp hbelow.sorted).1 _ hFG
      simp only at this
      omega

theorem prologueStartLoop_spec (hw : WellFormed B) (hf : EntriesFollow B B.Es)
    {Gs : List (Int × EntryPoint)} {J K : Option Nat} {k : Nat}
    (hJ : ∀ j ∈ J, I ≤ j ∧ j < B.count ∧ RunsInto B I j ∧ Below B.Es (B.Is j).addr Gs)
    (hK : ∀ k ∈ K, I < k ∧ RunsInto B I k)
    (h : prologueStartLoop B I (Gs.map (·.2)) J K = .ok (some k)) : I < k ∧ RunsInto B I k := by
  induction Gs generalizing J K with
  | nil =>
      cases h
      exact hK k rfl
  | cons G Gs ih =>
      rw [List.map_cons, prologueStartLoop] at h
      obtain ⟨j, hj, h⟩ := bind_ok.mp h
      obtain rfl := deref_ok.mp hj
      obtain ⟨hIj, hjc, hrun, hbelow⟩ := hJ j rfl
      simp only at h
      split at h
      · cases h
        exact hK k rfl
      rename_i hGI
      obtain ⟨hc, haddr, hfall⟩ := below_prologue hw hf hIj hjc hbelow (Classical.not_not.mp hGI)
      have hrun' : RunsInto B I (j + 1) := by
        intro m h1 h2
        rcases Nat.eq_or_lt_of_le h2 with rfl | hlt
        · exact ⟨hc, hfall, G.2, haddr ▸ ((hbelow.mem G).mp (List.mem_cons_self ..)).1⟩
        · exact hrun m h1 (Nat.le_of_lt_succ hlt)
      have hstep : ∀ i ∈ B.prev j, i = j + 1 := fun i hi => (prev_some hw hi).1
      refine ih (fun i hi => ?_) (fun i hi => ?_) h
      · rw [hstep i hi, ← haddr]
        exact ⟨by omega, hc, hrun', hbelow.tail⟩
      · split at hi
        · rw [hstep i hi]
          exact ⟨by omega, hrun'⟩
        · exact hK i hi

/-- The original code runs from the start of a prologue up to the patched instruction. -/
theorem getTrampolinePrologueStart_spec (hw : WellFormed B) (hf : EntriesFollow B B.Es) {k : Nat}
    (h : getTrampolinePrologueStart B I = .ok (some k)) : I < k ∧ RunsInto B I k := by
  unfold getTrampolinePrologueStart at h
  split at h
  · cases h
  simp only at h
  split at h
  · cases h
  rename_i E hE
  split at h
  · cases h
  · rename_i hEI
    have hI : I < B.count := Classical.not_not.mp hEI ▸ (hf.entry _ (EntrySet.find_mem hE)).1
    refine prologueStartLoop_spec hw hf (fun j hj => ?_) (fun k hk => by cases hk) h
    cases hj
    exact ⟨Nat.le_refl _, hI, .refl B I, below_filter hf.sorted _⟩

/-! ### Flattening -/

/-- The loop that builds a prologue makes the copies, and notes their addresses. -/
theorem buildPrologueLoop_copies (hw : WellFormed B) {fuel J : Nat} {addr r r' : Int} {buf buf' : Buffer}
    {entries entries' : List (Nat × Int)} (hIJ : I ≤ J) (hrun : RunsInto B I J)
    (h : buildPrologueLoop B I .BYTES fuel (some J) addr r buf entries = .ok (some (r', buf', entries'))) :
    ∃ bytes es stop, buf' = buf.push bytes ∧ entries' = entries ++ es ∧ Copies B I J addr bytes es stop ∧
      (bytes = [] → es = []) := by
  induction fuel generalizing J addr r buf entries with
  | zero => cases h
  | succ fuel ih =>
      unfold buildPrologueLoop at h
      simp only [deref, bind, Except.bind] at h
      split at h
      · rename_i heq
        cases h
        subst heq
        exact ⟨[], [], addr, (Buffer.push_eq_self.mpr rfl).symm, (List.append_nil _).symm, .nil addr, fun _ => rfl⟩
      rename_i hne
      split at h
      · cases h
      rename_i hlen
      obtain ⟨hJ, hfall, -⟩ := hrun J (by omega) (Nat.le_refl J)
      obtain ⟨code, hcode, hcopy, heq⟩ := relocateInstrTo_copy (hw.size J hJ) (Int.not_lt.mp hlen)
      obtain ⟨hsucc, -⟩ := succ_some hw hfall.1
      have hnext : B.next J = some (J - 1) := (Option.filter_eq_some_iff.mp hfall.1).1
      rw [hnext, heq] at h
      obtain ⟨bytes, es, stop, rfl, rfl, hcopies, -⟩ := ih (by omega)
        (fun m h1 h2 => hrun m h1 (by omega)) h
      refine ⟨code ++ bytes, (J, addr) :: es, stop, Buffer.push_push buf code bytes, ?_, .cons hfall hcopy hcopies, ?_⟩
      · rw [List.append_assoc]
        rfl
      · intro hnil
        exact absurd (List.append_eq_nil_iff.mp hnil).1 hcode

/-- A flattened prologue is filled up and publishes nothing, or it is made of the copies from its start on, which
are published and end where the trampoline begins. -/
theorem flattenPrologue_copies (hw : WellFormed B) (hf : EntriesFollow B B.Es) {fill : UInt8}
    {addr presize : Int} {pre : List UInt8} {entries : List (Nat × Int)}
    (h : flattenPrologue B fill addr presize (some I) = .ok (pre, entries)) :
    (pre = List.replicate presize.toNat fill ∧ entries = []) ∨
      ∃ J, getTrampolinePrologueStart B I = .ok (some J) ∧ Copies B I J (addr - presize) pre entries addr := by
  unfold flattenPrologue at h
  split at h
  · rename_i hpos
    simp only [deref, bind, Except.bind] at h
    split at h
    · cases h
    rename_i r hr
    obtain ⟨r, buf, es⟩ := r
    simp only at h
    split at h
    · cases h
    rename_i u hu
    rw [assert_ok] at hu
    cases h
    -- either nothing was built, or the loop went through
    have hbuilt : (buf = ⟨[], presize.toNat⟩ ∧ entries = []) ∨
        ∃ J bytes stop, getTrampolinePrologueStart B I = .ok (some J) ∧ buf = ⟨bytes, presize.toNat⟩ ∧
          Copies B I J (addr - presize) bytes entries stop ∧ (bytes = [] → entries = []) := by
      unfold buildPrologue at hr
      split at hr
      · cases hr
        exact Or.inl ⟨rfl, rfl⟩
      obtain ⟨K, hK, hr⟩ := bind_ok.mp hr
      split at hr
      · cases hr
        exact Or.inl ⟨rfl, rfl⟩
      rename_i hnot
      obtain ⟨J, rfl⟩ : ∃ J, K = some J := Option.ne_none_iff_exists'.mp fun hnone => hnot (Or.inl hnone)
      obtain ⟨o, ho, hr⟩ := bind_ok.mp hr
      cases o with
      | none =>
          cases hr
          exact Or.inl ⟨rfl, rfl⟩
      | some o =>
          cases hr
          obtain ⟨hIJ, hrun⟩ := getTrampolinePrologueStart_spec hw hf hK
          obtain ⟨bytes, es', stop, rfl, rfl, hcopies, hnil⟩ :=
            buildPrologueLoop_copies hw (Nat.le_of_lt hIJ) hrun ho
          exact Or.inr ⟨J, bytes, stop, hK, rfl, hcopies, hnil⟩
    rcases hbuilt with ⟨rfl, rfl⟩ | ⟨J, bytes, stop, hJ, rfl, hcopies, hnil⟩
    · exact Or.inl ⟨rfl, rfl⟩
    · by_cases hempty : bytes = []
      · subst hempty
        exact Or.inl ⟨rfl, hnil rfl⟩
      · have hlen : bytes.length ≠ 0 := Nat.ne_of_gt (List.length_pos_iff.mpr hempty)
        have hsize : (bytes.length : Int) = presize := hu.resolve_right hlen
        have hdata : (if (⟨bytes, presize.toNat⟩ : Buffer).size = 0 then List.replicate presize.toNat fill
            else bytes) = bytes := if_neg hlen
        rw [hdata]
        refine Or.inr ⟨J, hJ, ?_⟩
        have hstop := hcopies.stop_eq
        rwa [show stop = addr by omega] at hcopies
  · rename_i hpos
    cases h
    rw [show presize.toNat = 0 by omega]
    exact Or.inl ⟨rfl, rfl⟩

/-- The distance from an instruction to the entry of its trampoline, and the size of the prologue, fit the 32 bits
that flattening keeps them in. -/
def EntryFits (B : Binary) (A : Alloc Trampoline Nat) (I : Nat) : Prop :=
  (A.entry : Int) < 2 ^ 31 ∧ -2 ^ 31 ≤ A.lb + A.entry - (B.Is I).addr ∧ A.lb + A.entry - (B.Is I).addr < 2 ^ 31

instance (B : Binary) (A : Alloc Trampoline Nat) (I : Nat) : Decidable (EntryFits B A I) := by
  unfold EntryFits
  infer_instance

/-- What flattening makes of the prologue of a reservation, the bytes in front of its entry. Either all of it is
filled up and nothing is published, or all of it is the copies from the start of the prologue up to the patched
instruction. -/
def AllOrNone (B : Binary) (A : Alloc Trampoline Nat) (bytes : List UInt8) (entries : List (Nat × Int)) : Prop :=
  (A.I = none ∨ ∃ rest, bytes = List.replicate A.entry 0xcc ++ rest) ∧ entries = [] ∨
    ∃ I J pre rest, A.I = some I ∧ getTrampolinePrologueStart B I = .ok (some J) ∧
      bytes = pre ++ rest ∧ Copies B I J A.lb pre entries (A.lb + A.entry)

theorem flattenTrampoline_prologue {size : Nat} {fill : UInt8} {addr offset32 entry32 : Int} {T : Trampoline}
    {I : Option Nat} {bytes : List UInt8} {entries : List (Nat × Int)}
    (h : flattenTrampoline B size fill addr offset32 entry32 T I = .ok (bytes, entries)) :
    ∃ pre rest, bytes = pre ++ rest ∧
      flattenPrologue B fill addr (signed32 (entry32 - offset32)) I = .ok (pre, entries) := by
  unfold flattenTrampoline at h
  obtain ⟨a, -, h⟩ := bind_ok.mp h
  simp only at h
  split at h
  · cases h
  obtain ⟨⟨pre, es⟩, hpre, h⟩ := bind_ok.mp h
  obtain ⟨buf, -, h⟩ := bind_ok.mp h
  obtain ⟨_, -, h⟩ := bind_ok.mp h
  cases h
  exact ⟨pre, _, List.append_assoc .., hpre⟩

theorem flattenAlloc_prologue (hw : WellFormed B) (hf : EntriesFollow B B.Es) {A : Alloc Trampoline Nat}
    (hfits : ∀ I, A.I = some I → 0 < A.entry → EntryFits B A I) {bytes : List UInt8} {entries : List (Nat × Int)}
    (h : flattenAlloc B A = .ok (some (bytes, entries))) : AllOrNone B A bytes entries := by
  unfold flattenAlloc at h
  split at h
  · cases h
  simp only at h
  obtain ⟨r, hr, h⟩ := bind_ok.mp h
  cases h
  obtain ⟨pre, rest, rfl, hpre⟩ := flattenTrampoline_prologue hr
  cases hI : A.I with
  | none =>
      rw [hI] at hpre
      unfold flattenPrologue at hpre
      split at hpre
      · cases hpre
      · cases hpre
        exact Or.inl ⟨Or.inl hI, rfl⟩
  | some I =>
      rw [hI] at hpre
      simp only [Option.map_some, Option.getD_some] at hpre
      rcases Nat.eq_zero_or_pos A.entry with hzero | hpos
      · -- no prologue was reserved
        have hpresize : signed32 (signed32 (signed32 (A.lb - (B.Is I).addr) + A.entry) -
            signed32 (A.lb - (B.Is I).addr)) = 0 := by
          rw [hzero]
          unfold signed32
          omega
        rw [hpresize] at hpre
        cases hpre
        exact Or.inl ⟨Or.inr ⟨rest, by rw [hzero]; rfl⟩, rfl⟩
      · obtain ⟨hsize, hlow, hhigh⟩ := hfits I hI hpos
        -- nothing is lost in 32 bits
        have hentry : signed32 (signed32 (A.lb - (B.Is I).addr) + A.entry) = A.lb + A.entry - (B.Is I).addr := by
          unfold signed32
          omega
        have hpresize : signed32 (A.lb + A.entry - (B.Is I).addr - signed32 (A.lb - (B.Is I).addr)) = A.entry := by
          unfold signed32
          omega
        rw [hentry, hpresize] at hpre
        rcases flattenPrologue_copies hw hf hpre with ⟨rfl, rfl⟩ | ⟨J, hJ, hcopies⟩
        · exact Or.inl ⟨Or.inr ⟨rest, rfl⟩, rfl⟩
        · refine Or.inr ⟨I, J, pre, rest, hI, hJ, rfl, ?_⟩
          rwa [show (B.Is I).addr + (A.lb + A.entry - (B.Is I).addr) = A.lb + A.entry by omega,
            show A.lb + (A.entry : Int) - A.entry = A.lb by omega] at hcopies

end

/-! ### Publishing -/

/-- Of every entry point at most the address that it leads to changes. -/
def OnlyEntries (f : Int × EntryPoint → Int × EntryPoint) : Prop :=
  ∀ E, f E = (E.1, { E.2 with entry := (f E).2.entry })

theorem OnlyEntries.keepsKeys {f : Int × EntryPoint → Int × EntryPoint} (hf : OnlyEntries f) : KeepsKeys f :=
  fun E => by rw [hf E]; exact ⟨rfl, rfl⟩

/-- The binary with other addresses for its entry points. -/
structure Republished (B B' : Binary) : Prop where
  frame : B' = { B with Es := B'.Es }
  entries : ∃ f, OnlyEntries f ∧ B'.Es = B.Es.map f

section
variable {B B' : Binary} {I : Nat}

theorem Republished.refl (B : Binary) : Republished B B :=
  ⟨rfl, id, fun _ => rfl, (List.map_id _).symm⟩

theorem Republished.trans {B'' : Binary} (h : Republished B B') (h' : Republished B' B'') : Republished B B'' := by
  obtain ⟨f, hf, hEs⟩ := h.entries
  obtain ⟨g, hg, hEs'⟩ := h'.entries
  refine ⟨?_, g ∘ f, fun E => ?_, by rw [hEs', hEs, List.map_map]⟩
  · have hframe := h'.frame
    rw [h.frame] at hframe
    exact hframe
  · have hinner : ∀ x, ((f E).1, { (f E).2 with entry := x }) = (E.1, { E.2 with entry := x }) := by
      intro x
      rw [hf E]
    calc
      g (f E) = ((f E).1, { (f E).2 with entry := (g (f E)).2.entry }) := hg (f E)
      _ = (E.1, { E.2 with entry := (g (f E)).2.entry }) := hinner _

/-- Publishing for an instruction with an entry point adds nothing. -/
theorem republished_setTrampolineEntry {P : Nat} (hP : B.Es.HasKey (B.Is P).addr) (entry : Int) :
    Republished B (setTrampolineEntry B P entry) ∧
      ∀ F ∈ (setTrampolineEntry B P entry).Es, F ∈ B.Es ∨ F.1 = (B.Is P).addr ∧ F.2.entry = entry := by
  have hEs : (setTrampolineEntry B P entry).Es = EntrySet.setEntry B.Es (B.Is P).addr entry := by
    obtain ⟨G, hG⟩ := hP
    unfold setTrampolineEntry EntrySet.find
    dsimp only
    cases hfind : List.find? (fun E => decide (E.1 = (B.Is P).addr)) B.Es with
    | none => exact absurd (decide_eq_true rfl) (List.find?_eq_none.mp hfind _ hG)
    | some F => rfl
  refine ⟨⟨rfl, _, fun E => ?_, hEs⟩, fun F hF => ?_⟩
  · dsimp only
    split <;> rfl
  · rw [hEs] at hF
    obtain ⟨G, hG, rfl⟩ := List.mem_map.mp hF
    split
    · next haddr => exact Or.inr ⟨haddr, rfl⟩
    · exact Or.inl hG

/-- Publishing a list of addresses. -/
theorem republished_foldl {entries : List (Nat × Int)} (hkeys : ∀ e ∈ entries, B.Es.HasKey (B.Is e.1).addr) :
    Republished B (entries.foldl (fun B e => setTrampolineEntry B e.1 e.2) B) ∧
      ∀ F ∈ (entries.foldl (fun B e => setTrampolineEntry B e.1 e.2) B).Es,
        F ∈ B.Es ∨ ∃ e ∈ entries, F.1 = (B.Is e.1).addr ∧ F.2.entry = e.2 := by
  induction entries generalizing B with
  | nil => exact ⟨.refl B, fun F hF => Or.inl hF⟩
  | cons e entries ih =>
      obtain ⟨hone, hmem⟩ := republished_setTrampolineEntry (hkeys e List.mem_cons_self) e.2
      have hkeys' : ∀ e' ∈ entries,
          (setTrampolineEntry B e.1 e.2).Es.HasKey ((setTrampolineEntry B e.1 e.2).Is e'.1).addr := by
        intro e' he'
        obtain ⟨F, hF⟩ := hkeys e' (List.mem_cons_of_mem _ he')
        obtain ⟨f, hf, hEs⟩ := hone.entries
        rw [hEs]
        refine ⟨(f ((B.Is e'.1).addr, F)).2, List.mem_map.mpr ⟨_, hF, ?_⟩⟩
        exact Prod.ext (hf.keepsKeys _).1 rfl
      obtain ⟨hrest, hmem'⟩ := ih hkeys'
      refine ⟨hone.trans hrest, fun F hF => ?_⟩
      rcases hmem' F hF with hF | ⟨e', he', heq⟩
      · rcases hmem F hF with hF | heq
        · exact Or.inl hF
        · exact Or.inr ⟨e, List.mem_cons_self, heq⟩
      · exact Or.inr ⟨e', List.mem_cons_of_mem _ he', heq⟩

theorem prologueStartLoop_map {f : Int × EntryPoint → Int × EntryPoint} (hf : OnlyEntries f)
    (Gs : List (Int × EntryPoint)) (J K : Option Nat) :
    prologueStartLoop B I ((Gs.map f).map (·.2)) J K = prologueStartLoop B I (Gs.map (·.2)) J K := by
  induction Gs generalizing J K with
  | nil => rfl
  | cons G Gs ih =>
      rw [List.map_cons, List.map_cons, List.map_cons, prologueStartLoop, prologueStartLoop]
      rw [hf G]
      simp only [ih]

theorem prologueStartLoop_frame (Es : EntrySet) (Fs : List EntryPoint) (J K : Option Nat) :
    prologueStartLoop { B with Es := Es } I Fs J K = prologueStartLoop B I Fs J K := by
  induction Fs generalizing J K with
  | nil => rfl
  | cons F Fs ih =>
      rw [prologueStartLoop, prologueStartLoop]
      simp only [ih]
      rfl

/-- The start of a prologue is the same whatever has been published. -/
theorem Republished.start (h : Republished B B') (I : Nat) :
    getTrampolinePrologueStart B' I = getTrampolinePrologueStart B I := by
  obtain ⟨f, hf, hEs⟩ := h.entries
  have haddr : ∀ E, (f E).1 = E.1 := fun E => (hf.keepsKeys E).1
  have hI : ∀ E, (f E).2.I = E.2.I := fun E => (hf.keepsKeys E).2
  rw [h.frame, hEs]
  unfold getTrampolinePrologueStart EntrySet.find
  dsimp only
  rw [List.find?_map, List.filter_map]
  simp only [Function.comp_def, haddr, Option.map_map]
  cases B.Es.find? fun E => E.1 = (B.Is I).addr with
  | none => rfl
  | some E =>
      simp only [Option.map_some, hI]
      rw [prologueStartLoop_frame, ← List.map_reverse, prologueStartLoop_map hf]

theorem Republished.copies (h : Republished B B') {J : Nat} {addr stop : Int} {bytes : List UInt8}
    {entries : List (Nat × Int)} (hc : Copies B' I J addr bytes entries stop) :
    Copies B I J addr bytes entries stop := by
  rw [h.frame] at hc
  induction hc with
  | nil addr => exact .nil addr
  | cons hfall hcopy _ ih => exact .cons hfall hcopy ih

theorem Republished.allOrNone (h : Republished B B') {A : Alloc Trampoline Nat} {bytes : List UInt8}
    {entries : List (Nat × Int)} (ha : AllOrNone B' A bytes entries) : AllOrNone B A bytes entries := by
  rcases ha with hnone | ⟨I, J, pre, rest, hI, hJ, hbytes, hc⟩
  · exact Or.inl hnone
  · exact Or.inr ⟨I, J, pre, rest, hI, h.start I ▸ hJ, hbytes, h.copies hc⟩

theorem Republished.wellFormed (h : Republished B B') (hw : WellFormed B) : WellFormed B' := by
  rw [h.frame]
  exact hw.frame rfl rfl rfl hw.allocates

theorem Republished.follow (h : Republished B B') (hf : EntriesFollow B B.Es) : EntriesFollow B' B'.Es := by
  obtain ⟨f, hf', hEs⟩ := h.entries
  have hmap := hf.map hf'.keepsKeys
  rw [← hEs] at hmap
  rw [h.frame]
  exact ⟨hmap.sorted, hmap.entry⟩

/-- The published instructions are those from the start of the prologue on, and have entry points. -/
theorem Copies.published (hw : WellFormed B) {J : Nat} {addr stop : Int} {bytes : List UInt8}
    {entries : List (Nat × Int)} (h : Copies B I J addr bytes entries stop) :
    I ≤ J ∧ ∀ e ∈ entries, I < e.1 ∧ e.1 ≤ J := by
  induction h with
  | nil addr => exact ⟨Nat.le_refl _, fun e he => by cases he⟩
  | cons hfall _ _ ih =>
      obtain ⟨rfl, -, -⟩ := succ_some hw hfall.1
      obtain ⟨hle, hall⟩ := ih
      refine ⟨Nat.le_succ_of_le hle, fun e he => ?_⟩
      rcases List.mem_cons.mp he with rfl | he
      · exact ⟨Nat.lt_succ_of_le hle, Nat.le_refl _⟩
      · exact ⟨(hall e he).1, Nat.le_succ_of_le (hall e he).2⟩

end

/-! ### All trampolines -/

/-- The entry point is that of an instruction in front of a patched one, `I`. In the reservation of its trampoline
the bytes from there on are the copies of the code up to `I`, and then the trampoline begins. -/
def PointsIntoPrologue (B : Binary) (code : List (Nat × List UInt8 × List (Nat × Int))) (F : Int × EntryPoint) :
    Prop :=
  ∃ c ∈ code, ∃ I P pre post rest es, (B.alloc c.1).I = some I ∧ I < P ∧ F.1 = (B.Is P).addr ∧
    c.2.1 = pre ++ post ++ rest ∧ F.2.entry = (B.alloc c.1).lb + pre.length ∧
      Copies B I P F.2.entry post es ((B.alloc c.1).lb + (B.alloc c.1).entry)

theorem PointsIntoPrologue.append {B : Binary} {code : List (Nat × List UInt8 × List (Nat × Int))}
    {F : Int × EntryPoint} (h : PointsIntoPrologue B code F) (code' : List (Nat × List UInt8 × List (Nat × Int))) :
    PointsIntoPrologue B (code ++ code') F := by
  obtain ⟨c, hc, h⟩ := h
  exact ⟨c, List.mem_append_left _ hc, h⟩

/-- What holds while the trampolines are flattened. -/
structure PrologueState (B : Binary) (s : Flattened) : Prop where
  republished : Republished B s.B
  code : ∀ c ∈ s.code, AllOrNone B (B.alloc c.1) c.2.1 c.2.2
  entries : ∀ F ∈ s.B.Es, F ∈ B.Es ∨ PointsIntoPrologue B s.code F

/-- The entry points of every prologue that was reserved fit 32 bits. -/
def EntriesFit (B : Binary) : Prop :=
  ∀ n ∈ reservations B, ∀ I, (B.alloc n).I = some I → 0 < (B.alloc n).entry → EntryFits B (B.alloc n) I

section
variable {B : Binary}

/-- What one reservation publishes points into its prologue. -/
theorem AllOrNone.points (hw : WellFormed B) {n : Nat} {bytes : List UInt8} {entries : List (Nat × Int)}
    (h : AllOrNone B (B.alloc n) bytes entries) {F : Int × EntryPoint} {e : Nat × Int} (he : e ∈ entries)
    (haddr : F.1 = (B.Is e.1).addr) (hentry : F.2.entry = e.2) :
    PointsIntoPrologue B [(n, bytes, entries)] F := by
  rcases h with ⟨-, rfl⟩ | ⟨I, J, pre, rest, hI, -, rfl, hcopies⟩
  · cases he
  · obtain ⟨before, post, es, rfl, hlb, hpost⟩ := hcopies.suffix he
    have hP := ((hcopies.published hw).2 e he).1
    refine ⟨_, List.mem_singleton_self _, I, e.1, before, post, rest, es, hI, hP, haddr, rfl, ?_, ?_⟩
    · rw [hentry, hlb]
    · rw [hentry]
      exact hpost

/-- The instructions that a reservation publishes have entry points. -/
theorem AllOrNone.hasKey (hw : WellFormed B) (hf : EntriesFollow B B.Es) {A : Alloc Trampoline Nat}
    {bytes : List UInt8} {entries : List (Nat × Int)} (h : AllOrNone B A bytes entries) :
    ∀ e ∈ entries, B.Es.HasKey (B.Is e.1).addr := by
  intro e he
  rcases h with ⟨-, rfl⟩ | ⟨I, J, pre, rest, -, hJ, -, hcopies⟩
  · cases he
  · obtain ⟨h1, h2⟩ := (hcopies.published hw).2 e he
    exact ((getTrampolinePrologueStart_spec hw hf hJ).2 e.1 h1 h2).2.2

theorem flattenNext_prologue (hw : WellFormed B) (hf : EntriesFollow B B.Es) (hfits : EntriesFit B) {n : Nat}
    (hn : n ∈ reservations B) {s t : Flattened} (h : flattenNext s n = .ok t) (hs : PrologueState B s) :
    PrologueState B t := by
  obtain ⟨hrepublished, hcode, hentries⟩ := hs
  have halloc : s.B.alloc n = B.alloc n := by
    rw [hrepublished.frame]
    rfl
  have hIs : s.B.Is = B.Is := by rw [hrepublished.frame]
  have hw' := hrepublished.wellFormed hw
  have hf' := hrepublished.follow hf
  unfold flattenNext at h
  simp only at h
  obtain ⟨r, hr, h⟩ := bind_ok.mp h
  rw [halloc] at hr h
  split at h
  · next T bytes hT =>
      obtain ⟨bytes, entries⟩ := bytes
      have hprologue : AllOrNone s.B (B.alloc n) bytes entries := by
        refine flattenAlloc_prologue hw' hf' (fun I hI hpos => ?_) hr
        unfold EntryFits
        rw [hIs]
        exact hfits n hn I hI hpos
      obtain ⟨hpublish, hmem⟩ := republished_foldl (hprologue.hasKey hw' hf')
      have hall := hrepublished.allOrNone hprologue
      cases h
      refine ⟨hrepublished.trans hpublish, fun c hc => ?_, fun F hF => ?_⟩
      · rcases List.mem_append.mp hc with hc | hc
        · exact hcode c hc
        · cases List.mem_singleton.mp hc
          exact hall
      · rcases hmem F hF with hF | ⟨e, he, haddr, hentry⟩
        · exact (hentries F hF).imp_right fun h => h.append _
        · rw [hIs] at haddr
          obtain ⟨c, hc, hpoints⟩ := hall.points hw he haddr hentry
          exact Or.inr ⟨c, List.mem_append_right _ hc, hpoints⟩
  · cases h
    exact ⟨hrepublished, hcode, hentries⟩

/-- Every entry point that flattening publishes for an instruction of a prologue leads to the copies of the code
from there up to the patched instruction, and a prologue is there as a whole or not at all, if the prologues that
were reserved fit. -/
theorem prologue_entries (hB : Reachable B) {s : Flattened} (hs : flattenAllTrampolines B = .ok s)
    (hfits : EntriesFit B) :
    (∀ c ∈ s.code, AllOrNone B (B.alloc c.1) c.2.1 c.2.2) ∧
      ∀ F ∈ s.B.Es, F ∈ B.Es ∨ PointsIntoPrologue B s.code F := by
  have hw := hB.invariant.wellFormed
  have hf := hB.follows
  have hstart : PrologueState B ⟨B, [], []⟩ :=
    ⟨.refl B, List.forall_mem_nil _, fun F hF => Or.inl hF⟩
  have hrun : PrologueState B ⟨B, [], []⟩ → PrologueState B s :=
    foldlM_rel (R := fun s t => PrologueState B s → PrologueState B t) (fun _ h => h)
      (fun h1 h2 h => h2 (h1 h)) (fun n hn => flattenNext_prologue hw hf hfits hn) hs
  exact ⟨(hrun hstart).code, (hrun hstart).entries⟩

end

/-! ### Sample prologues -/

/-- `add $1,%rax`, `mov %eax,%ecx` and a jump, and far behind them a jump back to the first. -/
def backFile : File :=
  { size := 256
    bytes := fun p => byteAt ([0x90, 0x48, 0xb8, 0xb8, 0, 0, 0, 0, 0, 0, 0, 0x48, 0x83, 0xc0, 0x01, 0x89, 0xc1,
      0xeb, 0x10] ++ List.replicate 182 0 ++ [0xe9, 0x3d, 0xff, 0xff, 0xff]) p
    pic := true, segments := [(0x100000000, 0x100001000)], image_size := 0 }

def backOptions : Options :=
  { defaultOptions with
    option_batch := true, option_Oprologue := 1, option_tactic_B2 := false, option_tactic_T1 := false,
    option_tactic_T2 := false }

/-- The second instruction is patched with a jump back to the code. -/
def backMessages : List Message :=
  [.instruction [0x1000000c9] [5] [201], .instruction [0x100000011] [2] [17], .instruction [0x10000000f] [2] [15],
    .instruction [0x10000000b] [4] [11], .instruction [0x100000001] [10] [1], .patch [⟨0, [.BREAK false]⟩] [15] []]

def backRun (reserved : List Message) : Except Fault Binary := do
  let B ← parseBinary backFile .ELF_EXE backOptions none
  let B ← (reserved ++ backMessages).foldlM parseMessage B
  flushAll B

def backBinary (reserved : List Message) : Binary :=
  (backRun reserved).toOption.getD (newBinary backFile .ELF_EXE backOptions)

def backFlattened (reserved : List Message) : Flattened :=
  (flattenAllTrampolines (backBinary reserved)).toOption.getD ⟨backBinary reserved, [], []⟩

theorem back_reachable {reserved : List Message} (h : (backRun reserved).toOption.isSome = true) :
    Reachable (backBinary reserved) := by
  have hrun : backRun reserved = .ok (backBinary reserved) := ok_getD h
  obtain ⟨B₀, h₀, hrun⟩ := bind_ok.mp hrun
  obtain ⟨B₁, h₁, hflush⟩ := bind_ok.mp hrun
  have hB₁ : Reachable B₁ := reachable_of_messages h₀ h₁
  exact hB₁.runs (flushAll_runs hB₁.invariant hflush)

/-- The entry point that is published for `add`. -/
theorem prologue_entries_add : ((4294967307, ⟨2, 4294971392, false, true⟩) : Int × EntryPoint) ∉ (backBinary []).Es ∧
    PointsIntoPrologue (backBinary []) (backFlattened []).code (4294967307, ⟨2, 4294971392, false, true⟩) := by
  have hnew : ((4294967307, ⟨2, 4294971392, false, true⟩) : Int × EntryPoint) ∉ (backBinary []).Es := by
    decide +kernel
  have hflat : flattenAllTrampolines (backBinary []) = .ok (backFlattened []) := ok_getD (by decide +kernel)
  have hfits : EntriesFit (backBinary []) := by
    have hall : ∀ n ∈ reservations (backBinary []),
        ((backBinary []).alloc n).I.all (fun I => 0 < ((backBinary []).alloc n).entry →
          EntryFits (backBinary []) ((backBinary []).alloc n) I) = true := by
      decide +kernel
    intro n hn I hI
    have hn := hall n hn
    rw [hI, Option.all_some] at hn
    exact of_decide_eq_true hn
  refine ⟨hnew, ((prologue_entries (back_reachable (by decide +kernel)) hflat hfits).2 _ ?_).resolve_left hnew⟩
  decide +kernel

/-- Where the trampoline is more than two gigabytes below the instruction, the entry point that is published is
nowhere near the copy. -/
theorem prologue_entry_lost : ∃ B s F, Reachable B ∧ flattenAllTrampolines B = .ok s ∧ F ∈ s.B.Es ∧ F ∉ B.Es ∧
    ¬PointsIntoPrologue B s.code F := by
  let reserved : List Message := [.reserve [] [0x7ffff000] [] [0x1000], .reserve [] [0x100001000] [] [0x80003000]]
  refine ⟨backBinary reserved, backFlattened reserved, (4294967307, ⟨2, 6442450951, false, true⟩),
    back_reachable (by decide +kernel), ok_getD (by decide +kernel), by decide +kernel, by decide +kernel, ?_⟩
  rintro ⟨c, hc, I, P, pre, post, rest, es, -, -, -, hbytes, hentry, -⟩
  have hout : ∀ c ∈ (backFlattened reserved).code,
      ((backBinary reserved).alloc c.1).lb + c.2.1.length < 6442450951 := by
    decide +kernel
  have hin := hout c hc
  rw [hbytes, List.length_append, List.length_append] at hin
  dsimp only at hentry
  omega

end E9Patch
