/-
  Mile.Lib.Outcomes
  ─────────────────
  **LISTS OF COMPUTATIONS THAT MAY FAIL.**

  `l.mapM f` fails with the first element that fails.  If it returns, its result stands beside the
  list, element by element.
-/
import Mathlib

namespace Mile.Lib

open List

/-! ## §1. Related lists. -/

theorem exists_forall₂ {α β : Type} {R : α → β → Prop} {l : List α}
    (h : ∀ a ∈ l, ∃ b, R a b) : ∃ l', Forall₂ R l l' := by
  induction l with
  | nil => exact ⟨[], .nil⟩
  | cons a l ih =>
    obtain ⟨⟨b, hb⟩, hrest⟩ := forall_mem_cons.mp h
    obtain ⟨bs, hbs⟩ := ih hrest
    exact ⟨b :: bs, .cons hb hbs⟩

theorem exists_of_forall₂ {α β : Type} {R : α → β → Prop} {l : List α} {l' : List β}
    (h : Forall₂ R l l') {b : β} (hb : b ∈ l') : ∃ a ∈ l, R a b := by
  induction h with
  | nil => cases hb
  | cons hab _ ih =>
    rcases mem_cons.mp hb with rfl | hb
    · exact ⟨_, mem_cons_self, hab⟩
    · obtain ⟨a, ha, hR⟩ := ih hb
      exact ⟨a, mem_cons_of_mem _ ha, hR⟩

theorem forall₂_exists {α β : Type} {R : α → β → Prop} {l : List α} {l' : List β}
    (h : Forall₂ R l l') {a : α} (ha : a ∈ l) : ∃ b, R a b := by
  induction h with
  | nil => exact absurd ha not_mem_nil
  | @cons x b l l' hab _ ih =>
    rcases mem_cons.mp ha with rfl | ha
    · exact ⟨b, hab⟩
    · exact ih ha

theorem forall₂_eq_map {α β : Type} {R : α → β → Prop} {g : α → β} {l : List α} {l' : List β}
    (h : Forall₂ R l l') (heq : ∀ a ∈ l, ∀ b, R a b → b = g a) : l' = l.map g := by
  induction h with
  | nil => rfl
  | cons hab _ ih =>
    obtain ⟨hhead, htail⟩ := forall_mem_cons.mp heq
    rw [map_cons, hhead _ hab, ih htail]

theorem forall₂_trans {α β γ : Type} {R : α → β → Prop} {S : β → γ → Prop} {T : α → γ → Prop}
    {l : List α} {m : List β} {n : List γ} (h : Forall₂ R l m) (h' : Forall₂ S m n)
    (htrans : ∀ a, ∀ b ∈ m, ∀ c, R a b → S b c → T a c) : Forall₂ T l n := by
  induction h generalizing n with
  | nil =>
    cases h'
    exact .nil
  | cons hab _ ih =>
    obtain ⟨hhead, htail⟩ := forall_mem_cons.mp fun b hb a c => htrans a b hb c
    cases h' with
    | cons hbc hrest => exact .cons (hhead _ _ hab hbc) (ih hrest fun a b hb c => htail b hb a c)

/-! ## §2. `Option`. -/

section Option

variable {α β : Type} {g : α → Option β} {l : List α} {l' : List β}

theorem mapM_some_forall₂ (h : l.mapM g = some l') : Forall₂ (fun a b => g a = some b) l l' := by
  induction l generalizing l' with
  | nil =>
    obtain rfl : [] = l' := Option.some.inj h
    exact .nil
  | cons a l ih =>
    rw [mapM_cons] at h
    obtain ⟨b, hb, hrest⟩ := Option.bind_eq_some_iff.mp h
    obtain ⟨bs, hbs, hcons⟩ := Option.bind_eq_some_iff.mp hrest
    obtain rfl : b :: bs = l' := Option.some.inj hcons
    exact .cons hb (ih hbs)

theorem mapM_some_get (h : l.mapM g = some l') (i : Nat) : l'[i]? = (l[i]?).bind g := by
  have hall := mapM_some_forall₂ h
  clear h
  induction hall generalizing i with
  | nil => rfl
  | cons hab _ ih =>
    cases i with
    | zero => exact hab.symm
    | succ i => exact ih i

theorem mapM_some_mem (h : l.mapM g = some l') {b : β} : b ∈ l' ↔ ∃ a ∈ l, g a = some b := by
  rw [mem_iff_getElem?]
  constructor
  · rintro ⟨i, hi⟩
    rw [mapM_some_get h] at hi
    obtain ⟨a, ha, hb⟩ := Option.bind_eq_some_iff.mp hi
    exact ⟨a, mem_of_getElem? ha, hb⟩
  · rintro ⟨a, ha, hb⟩
    obtain ⟨i, hi⟩ := mem_iff_getElem?.mp ha
    exact ⟨i, by rw [mapM_some_get h, hi]; exact hb⟩

theorem mapM_some_of_forall (h : ∀ a ∈ l, ∃ b, g a = some b) : ∃ l', l.mapM g = some l' := by
  induction l with
  | nil => exact ⟨[], rfl⟩
  | cons a l ih =>
    obtain ⟨⟨b, hb⟩, hrest⟩ := forall_mem_cons.mp h
    obtain ⟨bs, hbs⟩ := ih hrest
    exact ⟨b :: bs, by rw [mapM_cons, hb, hbs]; rfl⟩

end Option

/-! ## §3. `Except`. -/

theorem except_bind_ok {α β ε : Type} {x : Except ε α} {f : α → Except ε β} {b : β}
    (h : x >>= f = .ok b) : ∃ a, x = .ok a ∧ f a = .ok b := by
  cases x with
  | error e => cases h
  | ok a => exact ⟨a, rfl, h⟩

theorem mapM_ok_forall₂ {α β ε : Type} {f : α → Except ε β} {l : List α} {l' : List β}
    (h : l.mapM f = .ok l') : Forall₂ (fun a b => f a = .ok b) l l' := by
  induction l generalizing l' with
  | nil =>
    obtain rfl : [] = l' := Except.ok.inj h
    exact .nil
  | cons a l ih =>
    rw [mapM_cons] at h
    obtain ⟨b, hb, hrest⟩ := except_bind_ok h
    obtain ⟨bs, hbs, hcons⟩ := except_bind_ok hrest
    obtain rfl : b :: bs = l' := Except.ok.inj hcons
    exact .cons hb (ih hbs)

end Mile.Lib
