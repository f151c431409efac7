/-
  Mile.Lib.RoundUp
  ────────────────
  **ROUNDING UP TO A MULTIPLE.**

  `roundUp s t` is the least multiple of `s` from `t` on.  Buckets `(T - s, T]` of one step lie
  within the buckets of every multiple of the step.
-/
import Mathlib

namespace Mile.Lib

/-- `t` rounded up to a multiple of `s`. -/
def roundUp (s t : Nat) : Nat := if t % s = 0 then t else t - t % s + s

section RoundUp

variable {s t T : Nat}

theorem dvd_roundUp (s t : Nat) : s ∣ roundUp s t := by
  unfold roundUp
  split_ifs with h
  · exact Nat.dvd_of_mod_eq_zero h
  · exact Nat.dvd_add (Nat.dvd_sub_mod t) (Nat.dvd_refl s)

theorem le_roundUp (hs : 0 < s) (t : Nat) : t ≤ roundUp s t := by
  have hmod := Nat.mod_lt t hs
  have hle := Nat.mod_le t s
  unfold roundUp
  split_ifs <;> omega

theorem roundUp_lt (hs : 0 < s) (t : Nat) : roundUp s t < t + s := by
  have hmod := Nat.mod_lt t hs
  have hle := Nat.mod_le t s
  unfold roundUp
  split_ifs <;> omega

theorem add_le_of_dvd {a b : Nat} (ha : s ∣ a) (hb : s ∣ b) (hlt : a < b) : a + s ≤ b := by
  obtain ⟨m, rfl⟩ := ha
  obtain ⟨n, rfl⟩ := hb
  have hmn : m + 1 ≤ n := Nat.lt_of_mul_lt_mul_left hlt
  calc s * m + s = s * (m + 1) := by rw [Nat.mul_add, Nat.mul_one]
    _ ≤ s * n := Nat.mul_le_mul_left s hmn

theorem eq_zero_or_le_of_dvd (hT : s ∣ T) : T = 0 ∨ s ≤ T :=
  T.eq_zero_or_pos.imp_right fun hpos => Nat.le_of_dvd hpos hT

/-- **A multiple bounds the rounded number exactly if it bounds the number.** -/
theorem roundUp_le_iff (hs : 0 < s) (hT : s ∣ T) : roundUp s t ≤ T ↔ t ≤ T := by
  refine ⟨Nat.le_trans (le_roundUp hs t), fun h => ?_⟩
  by_contra hlt
  have hstep := add_le_of_dvd hT (dvd_roundUp s t) (Nat.lt_of_not_le hlt)
  have := roundUp_lt hs t
  omega

theorem roundUp_zero (s : Nat) : roundUp s 0 = 0 := by
  simp [roundUp]

end RoundUp

end Mile.Lib
