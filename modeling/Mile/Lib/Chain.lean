/-
  Mile.Lib.Chain
  ──────────────
  **CHAINS OF CELLS.**

  Cells are linked by `link`: the next cell, or `none` at the end.  `follow` has fuel, since the
  links of a damaged memory can form a cycle.
-/
import Mathlib

namespace Mile.Lib

section Chain

variable {α : Type}

/-- The cells from `a` to the end of its chain. -/
def follow (link : α → Option α) : Nat → α → Option (List α)
  | 0, _ => none
  | fuel + 1, a =>
    match link a with
    | none => some [a]
    | some b => (follow link fuel b).map (a :: ·)

/-- The list is a chain: each cell leads to the one behind it, and the last
one is an end. -/
def Linked (link : α → Option α) : List α → Prop
  | [] => False
  | [a] => link a = none
  | a :: b :: l => link a = some b ∧ Linked link (b :: l)

variable {link : α → Option α}

/-- Following a chain gives its cells. -/
theorem follow_linked {l : List α} :
    ∀ {a : α} {fuel : Nat}, Linked link (a :: l) → l.length < fuel →
      follow link fuel a = some (a :: l) := by
  induction l with
  | nil =>
    intro a fuel h hfuel
    cases fuel with
    | zero => omega
    | succ fuel =>
      have hend : link a = none := h
      unfold follow
      rw [hend]
  | cons b l ih =>
    intro a fuel h hfuel
    cases fuel with
    | zero => omega
    | succ fuel =>
      obtain ⟨hlink, hrest⟩ := h
      unfold follow
      rw [hlink]
      have hwalk := @ih b fuel hrest (by simp at hfuel; omega)
      simp only [hwalk, Option.map_some]

end Chain

end Mile.Lib
