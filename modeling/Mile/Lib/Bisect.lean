/-
  Mile.Lib.Bisect
  ───────────────
  **BISECTION OF A SORTED TABLE.**

  The loop hands out the last place it looked at: that place has the key, or no place has it.
  Nothing is asked of the midpoint but that it lies between the bounds.
-/
import Mathlib

namespace Mile.Lib

section Bisect

variable {κ : Type} [LinearOrder κ]

/-- The loop; `last` is the place looked at before.  No result when the fuel
runs out. -/
def bisect (mid : Nat → Nat → Nat) (key : Nat → κ) (k : κ) : Nat → Nat → Nat → Nat → Option Nat
  | 0, _, _, _ => none
  | fuel + 1, left, right, last =>
    if left ≤ right then
      let m := mid left right
      if key m < k then bisect mid key k fuel (m + 1) right m
      else if k < key m then
        if m = 0 then some m else bisect mid key k fuel left (m - 1) m
      else some m
    else some last

variable {mid : Nat → Nat → Nat} {key : Nat → κ} {k : κ} {n : Nat}

/-- **Bisection ends at the key**, if the sorted table `key 0 … key n` has it:
below `left` all keys are smaller and above `right` all are larger. -/
theorem bisect_spec (hmid : ∀ l r, l ≤ r → r ≤ n → l ≤ mid l r ∧ mid l r ≤ r)
    (hsorted : ∀ i j, i ≤ j → j ≤ n → key i ≤ key j) :
    ∀ (fuel left right last : Nat), right ≤ n → last ≤ n → right + 1 - left < fuel →
      (∀ i < left, key i < k) → (∀ i, right < i → i ≤ n → k < key i) →
      ∃ m ≤ n, bisect mid key k fuel left right last = some m ∧
        (key m = k ∨ ∀ i ≤ n, key i ≠ k) := by
  intro fuel
  induction fuel with
  | zero => intro left right last _ _ hfuel; omega
  | succ fuel ih =>
    intro left right last hright hlast hfuel hbelow habove
    unfold bisect
    by_cases hle : left ≤ right
    · rw [if_pos hle]
      obtain ⟨hlm, hmr⟩ := hmid left right hle hright
      have hmn : mid left right ≤ n := by omega
      simp only
      by_cases hlt : key (mid left right) < k
      · rw [if_pos hlt]
        refine ih _ _ _ hright hmn (by omega) ?_ habove
        intro i hi
        exact lt_of_le_of_lt (hsorted i _ (by omega) hmn) hlt
      · rw [if_neg hlt]
        by_cases hgt : k < key (mid left right)
        · rw [if_pos hgt]
          by_cases h0 : mid left right = 0
          · -- the first place is too large already
            rw [if_pos h0]
            refine ⟨_, hmn, rfl, .inr fun i hi heq => ?_⟩
            have hfirst : key (mid left right) ≤ key i := hsorted _ i (by omega) hi
            rw [heq] at hfirst
            exact absurd (lt_of_lt_of_le hgt hfirst) (lt_irrefl k)
          · rw [if_neg h0]
            refine ih _ _ _ (by omega) hmn (by omega) hbelow ?_
            intro i hi hin
            exact lt_of_lt_of_le hgt (hsorted _ i (by omega) hin)
        · rw [if_neg hgt]
          exact ⟨_, hmn, rfl, .inl (le_antisymm (not_lt.mp hgt) (not_lt.mp hlt))⟩
    · -- nothing is left between the bounds
      rw [if_neg hle]
      refine ⟨last, hlast, rfl, .inr fun i hi heq => ?_⟩
      by_cases hil : i < left
      · exact absurd heq (ne_of_lt (hbelow i hil))
      · exact absurd heq (ne_of_gt (habove i (by omega) hi))

end Bisect

end Mile.Lib
