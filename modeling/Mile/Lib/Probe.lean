/-
  Mile.Lib.Probe
  ──────────────
  **OPEN ADDRESSING WITH CYCLIC PROBING.**

  A table has `n` slots; slot `s` carries the key `key s`, and a slot whose
  key is `empty` is free.  A key is looked for from its home slot on, round
  the table, up to the first slot that is free or carries it:

      do { if (stop) return i;  i = (i + 1) % n; } while (i != loc);

  with an optional bound on the number of rounds.
-/
import Mathlib

namespace Mile.Lib

open Function

/-! ## §1. The loop. -/

/-- The probe loop at slot `i`, with `budget` rounds left. -/
def probe (n : Nat) (p : Nat → Bool) (loc : Nat) : Nat → Nat → Option Nat
  | 0, _ => none
  | budget + 1, i =>
    if p i then some i
    else if (i + 1) % n = loc then none
    else probe n p loc budget ((i + 1) % n)

/-- The `k`-th slot from `loc` on. -/
def slotAt (n loc k : Nat) : Nat := (loc + k) % n

section Slots

variable {n loc : Nat}

theorem slotAt_lt (hn : 0 < n) (k : Nat) : slotAt n loc k < n := Nat.mod_lt _ hn

theorem slotAt_zero (hloc : loc < n) : slotAt n loc 0 = loc := Nat.mod_eq_of_lt hloc

theorem slotAt_succ (k : Nat) : (slotAt n loc k + 1) % n = slotAt n loc (k + 1) := by
  unfold slotAt
  rw [Nat.mod_add_mod, Nat.add_assoc]

theorem slotAt_inj {i j : Nat} (hi : i < n) (hj : j < n)
    (h : slotAt n loc i = slotAt n loc j) : i = j := by
  have hmod : loc + i ≡ loc + j [MOD n] := h
  have hij : i ≡ j [MOD n] := Nat.ModEq.add_left_cancel' loc hmod
  exact Nat.ModEq.eq_of_lt_of_lt hij hi hj

theorem exists_slotAt (hloc : loc < n) {s : Nat} (hs : s < n) : ∃ j < n, slotAt n loc j = s := by
  refine ⟨(s + n - loc) % n, Nat.mod_lt _ (by omega), ?_⟩
  unfold slotAt
  rw [Nat.add_mod_mod, show loc + (s + n - loc) = s + n by omega, Nat.add_mod_right]
  exact Nat.mod_eq_of_lt hs

theorem slotAt_succ_eq_iff (hloc : loc < n) {k : Nat} (hk : k < n) :
    slotAt n loc (k + 1) = loc ↔ k + 1 = n := by
  constructor
  · intro h
    by_contra hne
    have h0 : slotAt n loc (k + 1) = slotAt n loc 0 := by rw [h, slotAt_zero hloc]
    have := slotAt_inj (by omega) (by omega) h0
    omega
  · intro h
    unfold slotAt
    rw [h, Nat.add_mod_right]
    exact Nat.mod_eq_of_lt hloc

end Slots

/-- A probe stops at the first slot that passes. -/
theorem probe_from (n : Nat) (p : Nat → Bool) {loc : Nat} (hloc : loc < n) :
    ∀ (budget k : Nat), k < n →
      (∃ j, k ≤ j ∧ j < n ∧ j < k + budget ∧
        probe n p loc budget (slotAt n loc k) = some (slotAt n loc j) ∧
        p (slotAt n loc j) = true ∧ ∀ i, k ≤ i → i < j → p (slotAt n loc i) = false) ∨
      (probe n p loc budget (slotAt n loc k) = none ∧
        ∀ i, k ≤ i → i < n → i < k + budget → p (slotAt n loc i) = false) := by
  intro budget
  induction budget with
  | zero =>
    intro k _
    refine .inr ⟨rfl, fun i hki _ hi => ?_⟩
    omega
  | succ budget ih =>
    intro k hk
    unfold probe
    by_cases hp : p (slotAt n loc k) = true
    · refine .inl ⟨k, le_refl k, hk, by omega, by rw [if_pos hp], hp, fun i hki hi => ?_⟩
      omega
    · rw [if_neg hp, slotAt_succ]
      rw [Bool.not_eq_true] at hp
      by_cases hround : k + 1 = n
      · -- the round is complete: slot `k` was the last one
        rw [if_pos ((slotAt_succ_eq_iff hloc hk).mpr hround)]
        refine .inr ⟨rfl, fun i hki hi _ => ?_⟩
        have : i = k := by omega
        rw [this, hp]
      · rw [if_neg (fun h => hround ((slotAt_succ_eq_iff hloc hk).mp h))]
        rcases ih (k + 1) (by omega) with ⟨j, hkj, hjn, hjb, hres, hpj, hbefore⟩ | ⟨hres, hall⟩
        · refine .inl ⟨j, by omega, hjn, by omega, hres, hpj, fun i hki hi => ?_⟩
          rcases Nat.eq_or_lt_of_le hki with rfl | hlt
          · exact hp
          · exact hbefore i hlt hi
        · refine .inr ⟨hres, fun i hki hi hib => ?_⟩
          rcases Nat.eq_or_lt_of_le hki with rfl | hlt
          · exact hp
          · exact hall i hlt hi (by omega)

/-- **The probe loop** returns the first slot of its round, within its
budget, that stops it; otherwise none of these slots does. -/
theorem probe_cases (n : Nat) (p : Nat → Bool) {loc : Nat} (hloc : loc < n) (budget : Nat) :
    (∃ j, j < n ∧ j < budget ∧ probe n p loc budget loc = some (slotAt n loc j) ∧
        p (slotAt n loc j) = true ∧ ∀ i < j, p (slotAt n loc i) = false) ∨
      (probe n p loc budget loc = none ∧
        ∀ i, i < n → i < budget → p (slotAt n loc i) = false) := by
  have h := probe_from n p hloc budget 0 (by omega)
  rw [slotAt_zero hloc, Nat.zero_add] at h
  rcases h with ⟨j, -, hjn, hjb, hres, hpj, hbefore⟩ | ⟨hres, hall⟩
  · exact .inl ⟨j, hjn, hjb, hres, hpj, fun i hi => hbefore i (Nat.zero_le i) hi⟩
  · exact .inr ⟨hres, fun i hi hib => hall i (Nat.zero_le i) hi hib⟩

theorem probe_eq_slotAt {n : Nat} {p : Nat → Bool} {loc : Nat} (hloc : loc < n) {budget j : Nat}
    (hj : j < n) (hb : j < budget) (hp : p (slotAt n loc j) = true)
    (hbefore : ∀ i < j, p (slotAt n loc i) = false) :
    probe n p loc budget loc = some (slotAt n loc j) := by
  rcases probe_cases n p hloc budget with ⟨k, hk, hkb, hres, hpk, hk'⟩ | ⟨-, hall⟩
  · rcases Nat.lt_trichotomy j k with hlt | rfl | hgt
    · rw [hk' j hlt] at hp
      exact absurd hp (by simp)
    · exact hres
    · rw [hbefore k hgt] at hpk
      exact absurd hpk (by simp)
  · rw [hall j hj hb] at hp
    exact absurd hp (by simp)

/-! ## §2. Tables. -/

section Table

variable {κ : Type} [DecidableEq κ]

/-- What stops a probe for `k`: a free slot, or one that carries `k`. -/
def stopsAt (empty : κ) (key : Nat → κ) (k : κ) (s : Nat) : Bool :=
  key s = empty || key s = k

theorem stopsAt_eq_true {empty : κ} {key : Nat → κ} {k : κ} {s : Nat} :
    stopsAt empty key k s = true ↔ key s = empty ∨ key s = k := by
  simp [stopsAt]

theorem stopsAt_eq_false {empty : κ} {key : Nat → κ} {k : κ} {s : Nat} :
    stopsAt empty key k s = false ↔ key s ≠ empty ∧ key s ≠ k := by
  simp [stopsAt]

/-- The slot of a probe for `k` from its home. -/
def findSlot (n : Nat) (empty : κ) (home : κ → Nat) (key : Nat → κ) (budget : Nat) (k : κ) :
    Option Nat :=
  probe n (stopsAt empty key k) (home k) budget (home k)

variable {n : Nat} {empty : κ} {home : κ → Nat} {key : Nat → κ} {budget : Nat} {k : κ} {s : Nat}

section

variable (hhome : ∀ k, home k < n)

include hhome

theorem findSlot_some (h : findSlot n empty home key budget k = some s) :
    s < n ∧ (key s = empty ∨ key s = k) := by
  unfold findSlot at h
  have hn : 0 < n := Nat.lt_of_le_of_lt (Nat.zero_le _) (hhome k)
  rcases probe_cases n (stopsAt empty key k) (hhome k) budget with
    ⟨j, -, -, hres, hp, -⟩ | ⟨hres, -⟩
  · rw [hres] at h
    cases h
    exact ⟨slotAt_lt hn j, stopsAt_eq_true.mp hp⟩
  · rw [hres] at h
    cases h

theorem findSlot_isSome_iff :
    (findSlot n empty home key budget k).isSome = true ↔
      ∃ j < budget, key (slotAt n (home k) j) = empty ∨ key (slotAt n (home k) j) = k := by
  have hn : 0 < n := Nat.lt_of_le_of_lt (Nat.zero_le _) (hhome k)
  unfold findSlot
  rcases probe_cases n (stopsAt empty key k) (hhome k) budget with
    ⟨j, -, hjb, hres, hp, -⟩ | ⟨hres, hall⟩
  · rw [hres]
    exact ⟨fun _ => ⟨j, hjb, stopsAt_eq_true.mp hp⟩, fun _ => rfl⟩
  · rw [hres]
    refine ⟨fun h => (nomatch h), fun ⟨j, hj, hstop⟩ => ?_⟩
    -- from the second round on the slots are those of the first
    have hround : slotAt n (home k) (j % n) = slotAt n (home k) j := by
      unfold slotAt
      rw [Nat.add_mod_mod]
    have hpass := hall (j % n) (Nat.mod_lt _ hn) (Nat.lt_of_le_of_lt (Nat.mod_le j n) hj)
    rw [hround, stopsAt_eq_true.mpr hstop] at hpass
    cases hpass

theorem findSlot_eq_none_iff :
    findSlot n empty home key n k = none ↔ ∀ s < n, key s ≠ empty ∧ key s ≠ k := by
  have hn : 0 < n := Nat.lt_of_le_of_lt (Nat.zero_le _) (hhome k)
  rw [← Option.not_isSome_iff_eq_none, findSlot_isSome_iff hhome]
  constructor
  · intro hno s hs
    obtain ⟨j, hj, rfl⟩ := exists_slotAt (hhome k) hs
    exact not_or.mp fun hstop => hno ⟨j, hj, hstop⟩
  · rintro hall ⟨j, -, hstop⟩
    exact not_or.mpr (hall _ (slotAt_lt hn j)) hstop

theorem findSlot_mono {b b' : Nat} (hb : b ≤ b') (h : findSlot n empty home key b k = some s) :
    findSlot n empty home key b' k = some s := by
  unfold findSlot at h ⊢
  rcases probe_cases n (stopsAt empty key k) (hhome k) b with
    ⟨j, hj, hjb, hres, hp, hbefore⟩ | ⟨hres, -⟩
  · rw [hres] at h
    cases h
    exact probe_eq_slotAt (hhome k) hj (by omega) hp hbefore
  · rw [hres] at h
    cases h

/-- A key is found where it was put. -/
theorem findSlot_update_self (h : findSlot n empty home key budget k = some s) :
    findSlot n empty home (update key s k) budget k = some s := by
  unfold findSlot at h ⊢
  rcases probe_cases n (stopsAt empty key k) (hhome k) budget with
    ⟨j, hj, hjb, hres, hp, hbefore⟩ | ⟨hres, -⟩
  · rw [hres] at h
    cases h
    refine probe_eq_slotAt (hhome k) hj hjb ?_ fun i hi => ?_
    · exact stopsAt_eq_true.mpr (.inr (update_self ..))
    · -- the slots before do not stop the probe, so they are other slots
      have hne : slotAt n (home k) i ≠ slotAt n (home k) j := by
        intro heq
        have hpass := hbefore i hi
        rw [heq, hp] at hpass
        cases hpass
      have hpass := stopsAt_eq_false.mp (hbefore i hi)
      rw [stopsAt_eq_false, update_of_ne hne]
      exact hpass
  · rw [hres] at h
    cases h

end

/-- Every key of the table sits on an unbroken path from its home, no longer
than `reach`, and no key sits twice. -/
structure Probed (n : Nat) (empty : κ) (home : κ → Nat) (reach : Nat) (key : Nat → κ) : Prop where
  inj : ∀ s t, s < n → t < n → key s ≠ empty → key s = key t → s = t
  path : ∀ s, s < n → key s ≠ empty → ∃ j, j < n ∧ j < reach ∧ s = slotAt n (home (key s)) j ∧
    ∀ i < j, key (slotAt n (home (key s)) i) ≠ empty

omit [DecidableEq κ] in
theorem Probed.init (n : Nat) (empty : κ) (home : κ → Nat) (reach : Nat) :
    Probed n empty home reach (fun _ => empty) where
  inj := fun _ _ _ _ h _ => absurd rfl h
  path := fun _ _ h => absurd rfl h

variable {reach : Nat} {k : κ} {s : Nat} (h : Probed n empty home reach key)

include h

/-- In a probed table a key is found within the budget. -/
theorem Probed.find_iff {budget : Nat} (hhome : ∀ k, home k < n) (hk : k ≠ empty) :
    findSlot n empty home key budget k = some s ∧ key s ≠ empty ↔
      key s = k ∧ ∃ j, j < n ∧ j < budget ∧ s = slotAt n (home k) j := by
  have hn : 0 < n := Nat.lt_of_le_of_lt (Nat.zero_le _) (hhome k)
  constructor
  · rintro ⟨hfind, hne⟩
    refine ⟨(findSlot_some hhome hfind).2.resolve_left hne, ?_⟩
    unfold findSlot at hfind
    rcases probe_cases n (stopsAt empty key k) (hhome k) budget with
      ⟨j, hj, hjb, hres, -, -⟩ | ⟨hres, -⟩
    · rw [hres] at hfind
      exact ⟨j, hj, hjb, (Option.some.inj hfind).symm⟩
    · rw [hres] at hfind
      cases hfind
  · rintro ⟨rfl, j, hj, hjb, hslot⟩
    have hs : s < n := hslot ▸ slotAt_lt hn j
    obtain ⟨i, hi, -, hslot', hbefore⟩ := h.path s hs hk
    obtain rfl : j = i := slotAt_inj hj hi (hslot.symm.trans hslot')
    refine ⟨?_, hk⟩
    unfold findSlot
    rw [probe_eq_slotAt (hhome _) hj hjb (stopsAt_eq_true.mpr (.inr (by rw [← hslot]))), ← hslot]
    intro i hi
    refine stopsAt_eq_false.mpr ⟨hbefore i hi, fun heq => ?_⟩
    -- the key would sit at two distances of one round
    have hsame := h.inj _ _ (slotAt_lt hn i) hs (hbefore i hi) heq
    have := slotAt_inj (by omega) hj (hsame.trans hslot)
    omega

theorem Probed.find {budget : Nat} (hhome : ∀ k, home k < n) (hreach : reach ≤ budget) (hs : s < n)
    (hne : key s ≠ empty) : findSlot n empty home key budget (key s) = some s := by
  obtain ⟨j, hj, hjr, hslot, -⟩ := h.path s hs hne
  exact ((h.find_iff hhome hne).mpr ⟨rfl, j, hj, by omega, hslot⟩).1

theorem Probed.find_update_of_ne (budget : Nat) (h' : Probed n empty home reach (update key s k))
    (hhome : ∀ k, home k < n) (hkey : key s = empty ∨ key s = k) {e : κ} (he : e ≠ empty)
    (hne : e ≠ k) (t : Nat) :
    findSlot n empty home (update key s k) budget e = some t ∧
        update key s k t ≠ empty ↔
      findSlot n empty home key budget e = some t ∧ key t ≠ empty := by
  rw [h.find_iff hhome he, h'.find_iff hhome he]
  refine and_congr_left fun _ => ?_
  by_cases hts : t = s
  · rw [hts, update_self]
    refine ⟨fun heq => absurd heq.symm hne, fun heq => ?_⟩
    rcases hkey with h0 | h0
    · exact absurd (heq.symm.trans h0) he
    · exact absurd (heq.symm.trans h0) hne
  · rw [update_of_ne hts]

/-- **Filling the free slot a probe returned** keeps the table probed. -/
theorem Probed.update (hhome : ∀ k, home k < n) (hfind : findSlot n empty home key reach k = some s)
    (hfree : key s = empty) : Probed n empty home reach (update key s k) := by
  have hn : 0 < n := Nat.lt_of_le_of_lt (Nat.zero_le _) (hhome k)
  unfold findSlot at hfind
  rcases probe_cases n (stopsAt empty key k) (hhome k) reach with
    ⟨j, hj, hjr, hres, -, hbefore⟩ | ⟨hres, -⟩
  · rw [hres] at hfind
    cases hfind
    -- a slot that carries `k` would have stopped the probe
    have habsent : ∀ t < n, key t ≠ empty → key t ≠ k := by
      rintro t ht hne rfl
      have hfound := h.find hhome (le_refl reach) ht hne
      unfold findSlot at hfound
      rw [hres] at hfound
      have hslot : slotAt n (home (key t)) j = t := Option.some.inj hfound
      exact hne (hslot ▸ hfree)
    have hkeep : ∀ t, key t ≠ empty → Function.update key (slotAt n (home k) j) k t = key t := by
      intro t ht
      exact update_of_ne (by rintro rfl; exact ht hfree) _ _
    refine ⟨?_, ?_⟩
    · intro a b ha hb hne heq
      by_cases hak : a = slotAt n (home k) j
      · by_cases hbk : b = slotAt n (home k) j
        · rw [hak, hbk]
        · rw [hak, update_self, update_of_ne hbk] at heq
          have hkne : key b ≠ empty := by
            rw [← heq]
            rwa [hak, update_self] at hne
          exact absurd heq.symm (habsent b hb hkne)
      · rw [update_of_ne hak] at hne heq
        by_cases hbk : b = slotAt n (home k) j
        · rw [hbk, update_self] at heq
          exact absurd heq (habsent a ha hne)
        · rw [update_of_ne hbk] at heq
          exact h.inj a b ha hb hne heq
    · intro t ht hne
      by_cases htk : t = slotAt n (home k) j
      · subst htk
        rw [update_self] at hne ⊢
        refine ⟨j, hj, hjr, rfl, fun i hi => ?_⟩
        have hfull := (stopsAt_eq_false.mp (hbefore i hi)).1
        rw [hkeep _ hfull]
        exact hfull
      · rw [update_of_ne htk] at hne ⊢
        obtain ⟨i, hi, hir, hslot, hpath⟩ := h.path t ht hne
        refine ⟨i, hi, hir, hslot, fun i' hi' => ?_⟩
        rw [hkeep _ (hpath i' hi')]
        exact hpath i' hi'
  · rw [hres] at hfind
    cases hfind

end Table

end Mile.Lib
