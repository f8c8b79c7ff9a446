import Mathlib.Algebra.Order.Ring.Int
import Mathlib.Tactic.Common
import Mathlib.Data.List.Basic

/-!
Bytes and two's complement words. A word is an `Int`; `signed32 x` is what is left of it in 32 bits,
`le32` its four bytes, low byte first, and `word32` reads them back.
-/

namespace Bytes

instance decidableForallByte (p : UInt8 → Prop) [DecidablePred p] : Decidable (∀ b, p b) :=
  decidable_of_iff (∀ i : Fin 256, p ⟨⟨i⟩⟩) ⟨fun h b => h b.toBitVec.toFin, fun h _ => h _⟩

/-- The low byte of a word. -/
def byte (x : Int) : UInt8 := UInt8.ofNat (x % 256).toNat

/-- The cast to a signed 8-bit number. -/
def signed8 (x : Int) : Int := (x + 2 ^ 7) % 2 ^ 8 - 2 ^ 7

/-- The cast to a signed 32-bit number. -/
def signed32 (x : Int) : Int := (x + 2 ^ 31) % 2 ^ 32 - 2 ^ 31

/-- The cast to a signed 64-bit number. -/
def signed64 (x : Int) : Int := (x + 2 ^ 63) % 2 ^ 64 - 2 ^ 63

def le16 (x : Int) : List UInt8 := [byte x, byte (x / 2 ^ 8)]

def le32 (x : Int) : List UInt8 := [byte x, byte (x / 2 ^ 8), byte (x / 2 ^ 16), byte (x / 2 ^ 24)]

def le64 (x : Int) : List UInt8 := le32 x ++ le32 (x / 2 ^ 32)

/-- The byte at an index, zero past the end. -/
def byteAt (bytes : List UInt8) (i : Nat) : UInt8 := bytes.getD i 0

/-- The unsigned word at an index. -/
def uword32 (bytes : List UInt8) (i : Nat) : Int :=
  (byteAt bytes i).toNat + 2 ^ 8 * (byteAt bytes (i + 1)).toNat + 2 ^ 16 * (byteAt bytes (i + 2)).toNat +
    2 ^ 24 * (byteAt bytes (i + 3)).toNat

/-- The signed word at an index. -/
def word32 (bytes : List UInt8) (i : Nat) : Int := signed32 (uword32 bytes i)

/-- The signed byte at an index. -/
def word8 (bytes : List UInt8) (i : Nat) : Int := signed8 (byteAt bytes i).toNat

/-- The positions of the words of `size` bytes from `lb` to `ub`, both aligned inwards. -/
def getBounds (size lb ub : Nat) : List Nat :=
  let lo := (lb + size - 1) / size * size
  let hi := ub / size * size
  List.range' lo ((hi - lo) / size) size

theorem byte_toNat (x : Int) : ((byte x).toNat : Int) = x % 256 := by
  unfold byte
  rw [UInt8.toNat_ofNat']
  omega

theorem byte_of_toNat (b : UInt8) : byte b.toNat = b := by
  apply UInt8.toNat_inj.mp
  have h1 := byte_toNat b.toNat
  have h2 := b.toNat_lt
  omega

theorem byte_congr {x y : Int} (h : x % 256 = y % 256) : byte x = byte y := by
  unfold byte
  rw [h]

@[simp] theorem le32_length (x : Int) : (le32 x).length = 4 := rfl

theorem signed32_range (x : Int) : -2 ^ 31 ≤ signed32 x ∧ signed32 x < 2 ^ 31 := by
  unfold signed32
  omega

theorem signed32_eq {x : Int} (h1 : -2 ^ 31 ≤ x) (h2 : x < 2 ^ 31) : signed32 x = x := by
  unfold signed32
  omega

theorem signed64_eq {x : Int} (h1 : -2 ^ 63 ≤ x) (h2 : x < 2 ^ 63) : signed64 x = x := by
  unfold signed64
  omega

theorem signed8_eq {x : Int} (h1 : -2 ^ 7 ≤ x) (h2 : x < 2 ^ 7) : signed8 x = x := by
  unfold signed8
  omega

theorem signed8_byte (x : Int) : signed8 (byte x).toNat = signed8 x := by
  rw [byte_toNat]
  unfold signed8
  omega

theorem byteAt_append_right (as bs : List UInt8) (i : Nat) :
    byteAt (as ++ bs) (as.length + i) = byteAt bs i := by
  simp [byteAt, List.getD_eq_getElem?_getD, List.getElem?_append_right]

theorem byteAt_append_left {as bs : List UInt8} {i : Nat} (h : i < as.length) :
    byteAt (as ++ bs) i = byteAt as i := by
  simp [byteAt, List.getD_eq_getElem?_getD, List.getElem?_append_left h]

@[simp] theorem byteAt_cons_zero (b : UInt8) (bs : List UInt8) : byteAt (b :: bs) 0 = b := rfl
@[simp] theorem byteAt_cons_succ (b : UInt8) (bs : List UInt8) (i : Nat) :
    byteAt (b :: bs) (i + 1) = byteAt bs i := rfl

theorem uword32_append_right (as bs : List UInt8) (i : Nat) :
    uword32 (as ++ bs) (as.length + i) = uword32 bs i := by
  simp only [uword32, Nat.add_assoc, byteAt_append_right]

theorem word32_append_right (as bs : List UInt8) (i : Nat) :
    word32 (as ++ bs) (as.length + i) = word32 bs i := by
  simp only [word32, uword32_append_right]

theorem uword32_le32 (x : Int) (bs : List UInt8) : uword32 (le32 x ++ bs) 0 = x % 2 ^ 32 := by
  simp only [uword32, le32, List.cons_append, byteAt_cons_zero, byteAt_cons_succ, Nat.zero_add, byte_toNat]
  omega

/-- Reading back a word that was written. -/
theorem word32_le32 (x : Int) (bs : List UInt8) : word32 (le32 x ++ bs) 0 = signed32 x := by
  rw [word32, uword32_le32]
  unfold signed32
  omega

/-! ### Words of any number of bytes -/

/-- The low `n` bytes of a word, low byte first. -/
def bytesLE : Nat → Int → List UInt8
  | 0, _ => []
  | n + 1, x => byte x :: bytesLE n (x / 2 ^ 8)

/-- The unsigned word of `n` bytes at an index. -/
def wordLE : Nat → List UInt8 → Nat → Int
  | 0, _, _ => 0
  | n + 1, bytes, i => (byteAt bytes i).toNat + 2 ^ 8 * wordLE n bytes (i + 1)

/-- The cast to a signed number of `n` bytes. -/
def signedLE (n : Nat) (x : Int) : Int := (x + 2 ^ (8 * n - 1)) % 2 ^ (8 * n) - 2 ^ (8 * n - 1)

theorem le16_eq (x : Int) : le16 x = bytesLE 2 x := rfl

theorem le32_eq (x : Int) : le32 x = bytesLE 4 x := by
  simp only [le32, bytesLE, show x / 2 ^ 16 = x / 2 ^ 8 / 2 ^ 8 by omega,
    show x / 2 ^ 24 = x / 2 ^ 8 / 2 ^ 8 / 2 ^ 8 by omega]

theorem le64_eq (x : Int) : le64 x = bytesLE 8 x := by
  have hhigh : x / 2 ^ 32 = x / 2 ^ 8 / 2 ^ 8 / 2 ^ 8 / 2 ^ 8 := by omega
  rw [le64, le32_eq, le32_eq, hhigh]
  rfl

theorem wordLE_append_right (n : Nat) (as bs : List UInt8) (i : Nat) :
    wordLE n (as ++ bs) (as.length + i) = wordLE n bs i := by
  induction n generalizing i with
  | zero => rfl
  | succ n ih => rw [wordLE, wordLE, byteAt_append_right, Nat.add_assoc, ih]

/-- Reading back a word that was written. -/
theorem wordLE_bytesLE (n : Nat) (x : Int) (bs : List UInt8) : wordLE n (bytesLE n x ++ bs) 0 = x % 2 ^ (8 * n) := by
  induction n generalizing x bs with
  | zero => simp [wordLE]
  | succ n ih =>
      have htail := wordLE_append_right n [byte x] (bytesLE n (x / 2 ^ 8) ++ bs) 0
      have hpow : (2 : Int) ^ (8 * (n + 1)) = 2 ^ 8 * 2 ^ (8 * n) := by
        rw [Nat.mul_add, Nat.mul_one, Nat.add_comm, pow_add]
      have hdiv : x / (2 ^ 8 * 2 ^ (8 * n)) = x / 2 ^ 8 / 2 ^ (8 * n) := (Int.ediv_ediv_of_nonneg (by decide)).symm
      rw [wordLE, bytesLE, List.cons_append, byteAt_cons_zero, byte_toNat,
        show wordLE n (byte x :: (bytesLE n (x / 2 ^ 8) ++ bs)) (0 + 1) = x / 2 ^ 8 % 2 ^ (8 * n) from htail.trans (ih _ _),
        hpow, Int.emod_def x (2 ^ 8 * 2 ^ (8 * n)), hdiv, Int.emod_def (x / 2 ^ 8), Int.mul_sub, Int.mul_assoc]
      omega

/-- A number is what is left of it in `n` bytes, signed or unsigned, just when it is in the range of either. -/
theorem signedLE_or_emod {n : Nat} (hn : 0 < n) (x : Int) :
    (x % 2 ^ (8 * n) = x ∨ signedLE n x = x) ↔ -2 ^ (8 * n - 1) ≤ x ∧ x < 2 ^ (8 * n) := by
  have hpow : (2 : Int) ^ (8 * n) = 2 ^ (8 * n - 1) + 2 ^ (8 * n - 1) := by
    rw [show 8 * n = 8 * n - 1 + 1 by omega, pow_succ, Nat.add_sub_cancel]
    omega
  have hpos : (0 : Int) < 2 ^ (8 * n - 1) := Int.pow_pos (by decide)
  unfold signedLE
  rw [hpow]
  generalize (2 : Int) ^ (8 * n - 1) = M at hpos
  have hself : ∀ y : Int, y % (M + M) = y ↔ 0 ≤ y ∧ y < M + M := fun y =>
    ⟨fun h => h ▸ ⟨Int.emod_nonneg _ (by omega), Int.emod_lt_of_pos _ (by omega)⟩, fun h => Int.emod_eq_of_lt h.1 h.2⟩
  rw [hself, Int.sub_eq_iff_eq_add, hself]
  omega

theorem signedLE_eq {n : Nat} (hn : 0 < n) {x : Int} (h1 : -2 ^ (8 * n - 1) ≤ x) (h2 : x < 2 ^ (8 * n - 1)) :
    signedLE n x = x := by
  have hpow : (2 : Int) ^ (8 * n) = 2 ^ (8 * n - 1) + 2 ^ (8 * n - 1) := by
    rw [show 8 * n = 8 * n - 1 + 1 by omega, pow_succ, Nat.add_sub_cancel]
    omega
  unfold signedLE
  rw [hpow, Int.emod_eq_of_lt (by omega) (by omega)]
  omega

theorem signedLE_emod (n : Nat) (x : Int) : signedLE n (x % 2 ^ (8 * n)) = signedLE n x := by
  unfold signedLE
  rw [Int.emod_add_emod]

end Bytes
