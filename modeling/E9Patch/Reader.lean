import Mathlib.Algebra.Order.Ring.Int
import Mathlib.Data.List.Basic
import Mathlib.Tactic.Common

/-!
Reads of an object in memory. An object has fewer than `2 ^ 63` bytes, as a pointer difference has to be
representable. A function that reads is a computation that gives up at the first read outside, and a loop
gives up when its rounds run out; one that gives a result has done neither.
-/

namespace Reader

/-- Why a computation gives up. -/
inductive Fault where
  | outOfBounds
  | diverges
  deriving DecidableEq, Repr

structure Block where
  bytes : List UInt8
  bounded : bytes.length < 2 ^ 63

namespace Block

def size (d : Block) : Nat := d.bytes.length

/-- All `n` bytes from `off` are inside. -/
def Has (d : Block) (off : Int) (n : Nat) : Prop := 0 ≤ off ∧ off + n ≤ d.size

instance (d : Block) (off : Int) (n : Nat) : Decidable (d.Has off n) := by unfold Has; exact inferInstance

def get (d : Block) (off : Int) : UInt8 := d.bytes.getD off.toNat 0

/-- The little-endian word of `n` bytes at `off`. -/
def word (d : Block) (off : Int) : Nat → Nat
  | 0 => 0
  | n + 1 => (d.get off).toNat + 2 ^ 8 * d.word (off + 1) n

/-- The `n` bytes at `off`. -/
def slice (d : Block) (off : Int) (n : Nat) : List UInt8 := (List.range n).map fun k => d.get (off + k)

/-- The bytes `s` stand at `off`. -/
def holds (d : Block) (off : Int) : List UInt8 → Bool
  | [] => true
  | b :: s => d.get off = b && d.holds (off + 1) s

theorem size_lt (d : Block) : d.size < 2 ^ 63 := d.bounded

theorem word_lt (d : Block) (off : Int) (n : Nat) : d.word off n < 2 ^ (8 * n) := by
  induction n generalizing off with
  | zero => simp [word]
  | succ n ih =>
      have hb := (d.get off).toNat_lt
      have hw := ih (off + 1)
      have hp : 2 ^ (8 * (n + 1)) = 2 ^ 8 * 2 ^ (8 * n) := by
        rw [← Nat.pow_add]
        congr 1
        omega
      rw [word, hp]
      omega

theorem Has.mono {d : Block} {off : Int} {n m : Nat} (h : d.Has off n) (hm : m ≤ n) : d.Has off m := by
  unfold Has at h ⊢
  omega

end Block

/-- Read a word of `n` bytes. -/
def read (d : Block) (off : Int) (n : Nat) : Except Fault Nat :=
  if d.Has off n then .ok (d.word off n) else .error .outOfBounds

/-- `memcmp` with the bytes `s`, which reads as many: whether they are equal. -/
def memcmp (d : Block) (off : Int) (s : List UInt8) : Except Fault Bool :=
  if d.Has off s.length then .ok (d.holds off s) else .error .outOfBounds

/-- `memcpy` of `n` bytes out of the object. -/
def copy (d : Block) (off : Int) (n : Nat) : Except Fault (List UInt8) :=
  if d.Has off n then .ok (d.slice off n) else .error .outOfBounds

/-- A computation that gives a result. -/
def Safe {α : Type} (x : Except Fault α) : Prop := ∃ a, x = .ok a

section
variable {α β : Type} {d : Block} {off : Int} {n : Nat} {s : List UInt8}

@[simp] theorem safe_ok (a : α) : Safe (.ok a : Except Fault α) := ⟨a, rfl⟩

@[simp] theorem not_safe_error (e : Fault) : ¬Safe (.error e : Except Fault α) := fun ⟨_, h⟩ => by cases h

theorem safe_bind {x : Except Fault α} {f : α → Except Fault β} :
    Safe (x >>= f) ↔ ∃ a, x = .ok a ∧ Safe (f a) := by
  cases x with
  | error e =>
      refine iff_of_false (not_safe_error e) ?_
      rintro ⟨a, h, -⟩
      cases h
  | ok a =>
      constructor
      · exact fun h => ⟨a, rfl, h⟩
      · rintro ⟨b, h, hf⟩
        cases h
        exact hf

@[simp] theorem ok_bind (a : α) (f : α → Except Fault β) : ((.ok a : Except Fault α) >>= f) = f a := rfl

theorem of_bind {x : Except Fault α} {f : α → Except Fault β} {b : β} (h : x >>= f = .ok b) :
    ∃ a, x = .ok a ∧ f a = .ok b := by
  cases x with
  | error e => cases h
  | ok a => exact ⟨a, rfl, h⟩

theorem map_eq_ok {x : Except Fault α} {f : α → β} {b : β} (h : f <$> x = .ok b) : ∃ a, x = .ok a ∧ f a = b := by
  cases x with
  | error e => cases h
  | ok a => exact ⟨a, rfl, Except.ok.inj h⟩

/-- Of a computation that gives a result, only what comes after it can fail. -/
theorem Safe.bind {x : Except Fault α} {f : α → Except Fault β} (hx : Safe x) (hf : ∀ a, x = .ok a → Safe (f a)) :
    Safe (x >>= f) := by
  obtain ⟨a, ha⟩ := hx
  exact safe_bind.mpr ⟨a, ha, hf a ha⟩

theorem read_ok (h : d.Has off n) : read d off n = .ok (d.word off n) := if_pos h

theorem read_eq {b : Nat} (h : read d off n = .ok b) : b = d.word off n := by
  unfold read at h
  split at h
  · exact (Except.ok.inj h).symm
  · cases h

theorem memcmp_ok (h : d.Has off s.length) : memcmp d off s = .ok (d.holds off s) := if_pos h

theorem copy_ok (h : d.Has off n) : copy d off n = .ok (d.slice off n) := if_pos h

@[simp] theorem safe_read_bind {f : Nat → Except Fault β} :
    Safe (read d off n >>= f) ↔ d.Has off n ∧ Safe (f (d.word off n)) := by
  unfold read
  by_cases h : d.Has off n
  · rw [if_pos h, ok_bind]
    simp only [h, true_and]
  · rw [if_neg h]
    exact iff_of_false (fun ⟨_, hc⟩ => by cases hc) fun hc => h hc.1

@[simp] theorem safe_memcmp_bind {f : Bool → Except Fault β} :
    Safe (memcmp d off s >>= f) ↔ d.Has off s.length ∧ Safe (f (d.holds off s)) := by
  unfold memcmp
  by_cases h : d.Has off s.length
  · rw [if_pos h, ok_bind]
    simp only [h, true_and]
  · rw [if_neg h]
    exact iff_of_false (fun ⟨_, hc⟩ => by cases hc) fun hc => h hc.1

@[simp] theorem safe_copy_bind {f : List UInt8 → Except Fault β} :
    Safe (copy d off n >>= f) ↔ d.Has off n ∧ Safe (f (d.slice off n)) := by
  unfold copy
  by_cases h : d.Has off n
  · rw [if_pos h, ok_bind]
    simp only [h, true_and]
  · rw [if_neg h]
    exact iff_of_false (fun ⟨_, hc⟩ => by cases hc) fun hc => h hc.1

theorem safe_ite {c : Prop} [Decidable c] {x y : Except Fault α} :
    Safe (if c then x else y) ↔ (c → Safe x) ∧ (¬c → Safe y) := by
  by_cases h : c
  · rw [if_pos h]
    exact ⟨fun hx => ⟨fun _ => hx, fun hn => absurd h hn⟩, fun hx => hx.1 h⟩
  · rw [if_neg h]
    exact ⟨fun hy => ⟨fun hp => absurd hp h, fun _ => hy⟩, fun hy => hy.2 h⟩

end

end Reader
