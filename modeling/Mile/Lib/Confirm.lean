/-
  Mile.Lib.Confirm
  ────────────────
  **OPERATIONS AND THEIR CONFIRMATIONS.**

  An operation of a log counts when the very next entry confirms it (`confirmed`).  A cut costs
  one operation, exactly when it separates it from its confirmation.
-/
import Mathlib

namespace Mile.Lib

open List

/-- What an entry of the log is for. -/
inductive Role where
  | op
  | ok
  | fail
  deriving Repr, DecidableEq

section Confirm

variable {α : Type*} (role : α → Role)

/-! ## §1. The meaning of a log. -/

/-- The operations immediately followed by their confirmation, in order. -/
def confirmed : List α → List α
  | a :: b :: rest =>
    if role a = .op ∧ role b = .ok then a :: confirmed (b :: rest)
    else confirmed (b :: rest)
  | _ => []

/-- The cut between `xs` and `ys` separates an operation from the entry that
confirms it. -/
def SplitsPair (xs ys : List α) : Prop :=
  ∃ a b, xs.getLast? = some a ∧ ys.head? = some b ∧ role a = .op ∧ role b = .ok

instance (xs ys : List α) : Decidable (SplitsPair role xs ys) :=
  match hx : xs.getLast?, hy : ys.head? with
  | some a, some b =>
    decidable_of_iff (role a = .op ∧ role b = .ok) (by simp [SplitsPair, hx, hy])
  | none, _ => isFalse (by simp [SplitsPair, hx])
  | some _, none => isFalse (by simp [SplitsPair, hy])

variable {role}

theorem confirmed_cons_cons (a b : α) (rest : List α) :
    confirmed role (a :: b :: rest)
      = if role a = .op ∧ role b = .ok then a :: confirmed role (b :: rest)
        else confirmed role (b :: rest) := rfl

theorem confirmed_cons_of_ne {a : α} (ha : role a ≠ .op) (rest : List α) :
    confirmed role (a :: rest) = confirmed role rest := by
  cases rest with
  | nil => rfl
  | cons b rest => rw [confirmed_cons_cons, if_neg (fun h => ha h.1)]

theorem confirmed_cons_of_next {a b : α} (hb : role b ≠ .ok) (rest : List α) :
    confirmed role (a :: b :: rest) = confirmed role (b :: rest) := by
  rw [confirmed_cons_cons, if_neg (fun h => hb h.2)]

theorem confirmed_pair {a b : α} (ha : role a = .op) (hb : role b = .ok) (rest : List α) :
    confirmed role (a :: b :: rest) = a :: confirmed role rest := by
  rw [confirmed_cons_cons, if_pos ⟨ha, hb⟩, confirmed_cons_of_ne (by rw [hb]; decide)]

/-! ## §2. Cutting a log. -/

theorem splitsPair_cons_cons (x x' : α) (xs ys : List α) :
    SplitsPair role (x :: x' :: xs) ys ↔ SplitsPair role (x' :: xs) ys := by
  unfold SplitsPair
  rw [getLast?_cons_cons]

/-- A cut loses only a pair that it splits. -/
theorem confirmed_append (xs ys : List α) :
    (¬ SplitsPair role xs ys →
        confirmed role (xs ++ ys) = confirmed role xs ++ confirmed role ys) ∧
    (∀ a, xs.getLast? = some a → SplitsPair role xs ys →
        confirmed role (xs ++ ys) = confirmed role xs ++ a :: confirmed role ys) := by
  induction xs with
  | nil => exact ⟨fun _ => rfl, fun a ha => by simp at ha⟩
  | cons x xs ih =>
    cases xs with
    | nil =>
      -- the cut is right behind `x`: it matters what the next entry is
      cases ys with
      | nil =>
        refine ⟨fun _ => rfl, fun a _ hs => ?_⟩
        obtain ⟨_, b, _, hb, _⟩ := hs
        simp at hb
      | cons y ys =>
        constructor
        · intro hns
          have hno : ¬ (role x = .op ∧ role y = .ok) := fun h => hns ⟨x, y, rfl, rfl, h.1, h.2⟩
          show confirmed role (x :: y :: ys) = [] ++ confirmed role (y :: ys)
          rw [confirmed_cons_cons, if_neg hno]
          rfl
        · intro a ha hs
          obtain ⟨a', b', ha', hb', hop, hok⟩ := hs
          simp only [getLast?_singleton, Option.some.injEq] at ha ha'
          simp only [head?_cons, Option.some.injEq] at hb'
          subst ha ha' hb'
          show confirmed role (x :: y :: ys) = [] ++ x :: confirmed role (y :: ys)
          rw [confirmed_cons_cons, if_pos ⟨hop, hok⟩]
          rfl
    | cons x' xs =>
      -- the cut is further on: the first pair is read the same on both sides
      rw [splitsPair_cons_cons, getLast?_cons_cons]
      constructor
      · intro hns
        have h := ih.1 hns
        simp only [cons_append, confirmed_cons_cons] at h ⊢
        split <;> simp [h]
      · intro a ha hs
        have h := ih.2 a ha hs
        simp only [cons_append, confirmed_cons_cons] at h ⊢
        split <;> simp [h]

theorem confirmed_append_of_not_split {xs ys : List α} (h : ¬ SplitsPair role xs ys) :
    confirmed role (xs ++ ys) = confirmed role xs ++ confirmed role ys :=
  (confirmed_append xs ys).1 h

theorem confirmed_append_of_split {xs ys : List α} {a : α} (ha : xs.getLast? = some a)
    (h : SplitsPair role xs ys) :
    confirmed role (xs ++ ys) = confirmed role xs ++ a :: confirmed role ys :=
  (confirmed_append xs ys).2 a ha h

theorem confirmed_sublist_append (xs ys : List α) :
    (confirmed role ys).Sublist (confirmed role (xs ++ ys)) := by
  by_cases hs : SplitsPair role xs ys
  · obtain ⟨a, _, ha, _⟩ := id hs
    rw [confirmed_append_of_split ha hs]
    exact ((Sublist.refl _).cons a).trans (sublist_append_right _ _)
  · rw [confirmed_append_of_not_split hs]
    exact sublist_append_right _ _

/-! ## §3. Readers that keep one pending entry. -/

/-- One step of a reader: from `pending` and the entry `r` to the next
pending entry and what is emitted.  After a confirmation the reader may keep
that entry or forget it; the rest is fixed. -/
structure Pairing (role : α → Role) (step : Option α → α → Option α × Option α) : Prop where
  /-- A pending operation is emitted on its confirmation. -/
  pair : ∀ a r, role a = .op → role r = .ok → step (some a) r = (none, some a)
  /-- Otherwise nothing is emitted, and `r` becomes pending unless it is a
  confirmation, which may be dropped. -/
  other : ∀ p r, (∀ a, p = some a → role a = .op → role r ≠ .ok) →
    (step p r).2 = none ∧
      ((step p r).1 = some r ∨ ((step p r).1 = none ∧ role r ≠ .op))

/-- Run a reader over a list of entries: the final pending entry and
everything emitted. -/
def pairingRun (step : Option α → α → Option α × Option α) :
    Option α → List α → Option α × List α
  | p, [] => (p, [])
  | p, r :: rs =>
    let out := step p r
    let rest := pairingRun step out.1 rs
    (rest.1, out.2.toList ++ rest.2)

theorem confirmed_pending {p : Option α} {r : α} (rs : List α)
    (h : p = some r ∨ (p = none ∧ role r ≠ .op)) :
    confirmed role (p.toList ++ rs) = confirmed role (r :: rs) := by
  rcases h with rfl | ⟨rfl, hr⟩
  · rfl
  · rw [confirmed_cons_of_ne hr]
    rfl

/-- **The run rule**: a pairing reader emits exactly the confirmed
operations of its pending entry followed by the entries read. -/
theorem Pairing.emits {step : Option α → α → Option α × Option α}
    (hstep : Pairing role step) (rs : List α) (p : Option α) :
    (pairingRun step p rs).2 = confirmed role (p.toList ++ rs) := by
  induction rs generalizing p with
  | nil =>
    cases p with
    | none => rfl
    | some a => rfl
  | cons r rs ih =>
    simp only [pairingRun]
    -- either the entry just read confirms the pending one, or nothing is emitted
    by_cases hpair : ∃ a, p = some a ∧ role a = .op ∧ role r = .ok
    · obtain ⟨a, rfl, ha, hr⟩ := hpair
      rw [hstep.pair a r ha hr, ih]
      show [a] ++ confirmed role rs = confirmed role (a :: r :: rs)
      rw [confirmed_pair ha hr]
      rfl
    · push Not at hpair
      obtain ⟨hemit, hnext⟩ := hstep.other p r (fun a hp ha => hpair a hp ha)
      rw [ih, hemit, confirmed_pending rs hnext]
      show confirmed role (r :: rs) = confirmed role (p.toList ++ r :: rs)
      cases p with
      | none => rfl
      | some a =>
        show _ = confirmed role (a :: r :: rs)
        by_cases ha : role a = .op
        · rw [confirmed_cons_of_next (hpair a rfl ha)]
        · rw [confirmed_cons_of_ne ha]

theorem pairingRun_append (step : Option α → α → Option α × Option α) (p : Option α)
    (xs ys : List α) :
    pairingRun step p (xs ++ ys)
      = ((pairingRun step (pairingRun step p xs).1 ys).1,
         (pairingRun step p xs).2 ++ (pairingRun step (pairingRun step p xs).1 ys).2) := by
  induction xs generalizing p with
  | nil => rfl
  | cons x xs ih =>
    simp only [cons_append, pairingRun]
    rw [ih]
    simp only [append_assoc]

end Confirm

/-! ## §4. Logs of images. -/

section Map

variable {α β : Type*} {role : α → Role} {role' : β → Role} {f : α → β}

theorem confirmed_map (h : ∀ a, role' (f a) = role a) (xs : List α) :
    confirmed role' (xs.map f) = (confirmed role xs).map f := by
  induction xs with
  | nil => rfl
  | cons a xs ih =>
    cases xs with
    | nil => rfl
    | cons b rest =>
      simp only [map_cons, confirmed_cons_cons, h] at ih ⊢
      split <;> simp [ih]

end Map

end Mile.Lib
