/-
  Mile.Lib.LittleEndian
  ─────────────────────
  **BYTE STRINGS AND LITTLE-ENDIAN WORDS.**

  A word of `k` bytes is written low byte first (`leBytes k n`) and read
  back as a natural number (`leNat`).  The two facts everything else uses:

      leNat (leBytes k n) = n % 256 ^ k        (round trip, with the wrap)
      leAt  (pre ++ leBytes k n ++ post) pre.length k = n     (if it fits)
-/
import Mathlib

namespace Mile.Lib

open List

abbrev Bytes := List UInt8

/-! ## §1. Words. -/

/-- The low `k` bytes of `n`, lowest first. -/
def leBytes : Nat → Nat → Bytes
  | 0, _ => []
  | k + 1, n => UInt8.ofNat n :: leBytes k (n / 256)

def leNat : Bytes → Nat
  | [] => 0
  | b :: bs => b.toNat + 256 * leNat bs

@[simp] theorem leBytes_length (k n : Nat) : (leBytes k n).length = k := by
  induction k generalizing n with
  | zero => rfl
  | succ k ih => simp [leBytes, ih]

/-- **Round trip**: reading a written word gives the number modulo the
width. -/
theorem leNat_leBytes (k n : Nat) : leNat (leBytes k n) = n % 256 ^ k := by
  induction k generalizing n with
  | zero => simp [leBytes, leNat, Nat.mod_one]
  | succ k ih =>
    simp only [leBytes, leNat]
    have hbyte : (UInt8.ofNat n).toNat = n % 256 := UInt8.toNat_ofNat'
    have hwide : 256 ^ (k + 1) = 256 * 256 ^ k := by ring
    rw [ih, hbyte, hwide, Nat.mod_mul]

theorem leNat_leBytes_of_lt {k n : Nat} (h : n < 256 ^ k) : leNat (leBytes k n) = n := by
  rw [leNat_leBytes, Nat.mod_eq_of_lt h]

theorem leBytes_mod (k n : Nat) : leBytes k (n % 256 ^ k) = leBytes k n := by
  induction k generalizing n with
  | zero => rfl
  | succ k ih =>
    have hwide : 256 ^ (k + 1) = 256 * 256 ^ k := by ring
    have hlow : n % 256 ^ (k + 1) % 256 = n % 256 := by
      rw [hwide]
      exact Nat.mod_mul_right_mod n 256 (256 ^ k)
    have hbyte : UInt8.ofNat (n % 256 ^ (k + 1)) = UInt8.ofNat n := by
      apply UInt8.toNat_inj.mp
      rw [UInt8.toNat_ofNat', UInt8.toNat_ofNat']
      exact hlow
    simp only [leBytes]
    rw [hbyte, hwide, Nat.mod_mul_right_div_self, ih]

theorem leNat_lt (bs : Bytes) : leNat bs < 256 ^ bs.length := by
  induction bs with
  | nil => exact Nat.one_pos
  | cons b bs ih =>
    have hb := b.toNat_lt
    simp only [leNat, length_cons, pow_succ]
    omega

theorem leBytes_leNat_take (bs : Bytes) (k : Nat) (hk : k ≤ bs.length) :
    leBytes k (leNat bs) = bs.take k := by
  induction bs generalizing k with
  | nil =>
    rw [length_nil, Nat.le_zero] at hk
    subst hk
    rfl
  | cons b bs ih =>
    cases k with
    | zero => rfl
    | succ k =>
      have hb := b.toNat_lt
      have hlow : UInt8.ofNat (b.toNat + 256 * leNat bs) = b := by
        apply UInt8.toNat_inj.mp
        rw [UInt8.toNat_ofNat']
        omega
      have hhigh : (b.toNat + 256 * leNat bs) / 256 = leNat bs := by omega
      rw [leNat, leBytes, hlow, hhigh, ih k (Nat.le_of_succ_le_succ hk), take_succ_cons]

theorem leBytes_leNat (bs : Bytes) : leBytes bs.length (leNat bs) = bs := by
  rw [leBytes_leNat_take bs bs.length le_rfl, take_length]

/-! ## §2. Reading a word at an offset. -/

/-- The `k`-byte word at offset `off`. -/
def leAt (b : Bytes) (off k : Nat) : Nat := leNat ((b.drop off).take k)

theorem leAt_append (pre post : Bytes) (k n : Nat) {off : Nat} (hoff : off = pre.length)
    (hn : n < 256 ^ k) : leAt (pre ++ (leBytes k n ++ post)) off k = n := by
  subst hoff
  unfold leAt
  rw [drop_left, take_left' (leBytes_length k n), leNat_leBytes_of_lt hn]

theorem leAt_eq_of_prefix {a b : Bytes} {off k : Nat} (hlen : off + k ≤ a.length)
    (h : a <+: b) : leAt b off k = leAt a off k := by
  obtain ⟨t, rfl⟩ := h
  unfold leAt
  rw [drop_append_of_le_length (by omega), take_append_of_le_length (by simp; omega)]

end Mile.Lib
