/-
  Mile.Lib.Descending
  ───────────────────
  **WALKING TWO DESCENDING LISTS.**

  A walk of two strictly descending lists steps past the larger of two elements.  It keeps
  `Crossed xs ys i j`: everything passed in one list is above everything to come in the other.
-/
import Mathlib

namespace Mile.Lib

open List

instance linearOrderUInt32 : LinearOrder UInt32 where
  le_refl := UInt32.le_refl
  le_trans := fun _ _ _ => UInt32.le_trans
  lt_iff_le_not_ge := fun a b => by
    rw [UInt32.not_le]
    exact ⟨fun h => ⟨UInt32.le_of_lt h, h⟩, fun h => h.2⟩
  le_antisymm := fun _ _ => UInt32.le_antisymm
  le_total := UInt32.le_total
  toDecidableLE := inferInstance
  toDecidableEq := inferInstance
  toDecidableLT := inferInstance

section Walk

variable {α : Type*} [LinearOrder α] {xs ys : List α} {i j : Nat}

/-- Everything passed in one list is above everything to come in the other. -/
structure Crossed (xs ys : List α) (i j : Nat) : Prop where
  below : ∀ x ∈ xs.take i, ∀ y ∈ ys.drop j, y < x
  above : ∀ y ∈ ys.take j, ∀ x ∈ xs.drop i, x < y

theorem crossed_zero (xs ys : List α) : Crossed xs ys 0 0 :=
  ⟨fun x hx => absurd hx (by simp), fun y hy => absurd hy (by simp)⟩

theorem Crossed.symm (h : Crossed xs ys i j) : Crossed ys xs j i := ⟨h.above, h.below⟩

variable (hx : xs.Pairwise (· > ·)) (hy : ys.Pairwise (· > ·)) (h : Crossed xs ys i j)
  (hi : i < xs.length) (hj : j < ys.length)

section

include hx hi

theorem lt_of_mem_drop_succ {x : α} (hmem : x ∈ xs.drop (i + 1)) : x < xs[i] := by
  have hpair := hx.sublist (drop_sublist i xs)
  rw [drop_eq_getElem_cons hi] at hpair
  exact (pairwise_cons.mp hpair).1 x hmem

theorem le_of_mem_drop {x : α} (hmem : x ∈ xs.drop i) : x ≤ xs[i] := by
  rw [drop_eq_getElem_cons hi] at hmem
  rcases mem_cons.mp hmem with rfl | hmem
  · exact le_rfl
  · exact (lt_of_mem_drop_succ hx hi hmem).le

end

omit [LinearOrder α] in
theorem mem_drop_of_succ {x : α} (h : x ∈ xs.drop (i + 1)) : x ∈ xs.drop i :=
  mem_of_mem_drop (i := 1) (by rwa [drop_drop])

include hi

omit [LinearOrder α] in
theorem mem_take_succ {x : α} : x ∈ xs.take (i + 1) ↔ x ∈ xs.take i ∨ x = xs[i] := by
  rw [take_succ_eq_append_getElem hi, mem_append, mem_singleton]

include h hj

include hy in
theorem Crossed.left (hgt : ys[j] < xs[i]) : Crossed xs ys (i + 1) j := by
  refine ⟨fun x hx y hmem => ?_, fun y hmem x hx => ?_⟩
  · rcases (mem_take_succ hi).mp hx with hx | rfl
    · exact h.below x hx y hmem
    · exact lt_of_le_of_lt (le_of_mem_drop hy hj hmem) hgt
  · exact h.above y hmem x (mem_drop_of_succ hx)

include hx in
theorem Crossed.right (hlt : xs[i] < ys[j]) : Crossed xs ys i (j + 1) :=
  (h.symm.left hx hj hi hlt).symm

include hx hy in
theorem Crossed.both (heq : xs[i] = ys[j]) : Crossed xs ys (i + 1) (j + 1) := by
  refine ⟨fun x hmem y hmem' => ?_, fun y hmem x hmem' => ?_⟩
  · rcases (mem_take_succ hi).mp hmem with hmem | rfl
    · exact h.below x hmem y (mem_drop_of_succ hmem')
    · rw [heq]
      exact lt_of_mem_drop_succ hy hj hmem'
  · rcases (mem_take_succ hj).mp hmem with hmem | rfl
    · exact h.above y hmem x (mem_drop_of_succ hmem')
    · rw [← heq]
      exact lt_of_mem_drop_succ hx hi hmem'

include hy in
theorem Crossed.not_mem (hgt : ys[j] < xs[i]) : xs[i] ∉ ys := by
  intro hmem
  rw [← take_append_drop j ys] at hmem
  rcases mem_append.mp hmem with htake | hdrop
  · have hself : xs[i] ∈ xs.drop i := by
      rw [drop_eq_getElem_cons hi]
      exact mem_cons_self
    exact lt_irrefl _ (h.above _ htake _ hself)
  · exact absurd (le_of_mem_drop hy hj hdrop) (not_le.mpr hgt)

include hx hy in
/-- A step of the walk: past `xs[i]`, past `ys[j]`, or past both. -/
theorem Crossed.cases :
    ys[j] < xs[i] ∧ xs[i] ∉ ys ∧ Crossed xs ys (i + 1) j ∨
      xs[i] < ys[j] ∧ Crossed xs ys i (j + 1) ∨
      xs[i] = ys[j] ∧ xs[i] ∈ ys ∧ Crossed xs ys (i + 1) (j + 1) := by
  rcases lt_trichotomy xs[i] ys[j] with hlt | heq | hgt
  · exact .inr (.inl ⟨hlt, h.right hx hi hj hlt⟩)
  · exact .inr (.inr ⟨heq, heq ▸ getElem_mem hj, h.both hx hy hi hj heq⟩)
  · exact .inl ⟨hgt, h.not_mem hy hi hj hgt, h.left hy hi hj hgt⟩

omit hi hj in
/-- What the walk leaves of the first list is below the second one. -/
theorem Crossed.rest_lt (hend : i = xs.length ∨ j = ys.length) {x y : α}
    (hx : x ∈ xs.drop i) (hy : y ∈ ys) : x < y := by
  rcases hend with rfl | rfl
  · rw [drop_length] at hx
    cases hx
  · exact h.above y (by rwa [take_length]) x hx

end Walk

section Selection

variable {α : Type*} {xs : List α} {i : Nat}

theorem filter_take_succ (p : α → Bool) (hi : i < xs.length) :
    (xs.take (i + 1)).filter p = (xs.take i).filter p ++ if p xs[i] then [xs[i]] else [] := by
  rw [take_succ_eq_append_getElem hi, filter_append]
  congr 1
  simp [filter_cons]

theorem filter_take_eq {p : α → Bool} (h : ∀ x ∈ xs.drop i, p x = false) :
    (xs.take i).filter p = xs.filter p := by
  have hrest : (xs.drop i).filter p = [] := by
    rw [filter_eq_nil_iff]
    intro x hx
    simp [h x hx]
  conv_rhs => rw [← take_append_drop i xs]
  rw [filter_append, hrest, append_nil]

end Selection

end Mile.Lib
