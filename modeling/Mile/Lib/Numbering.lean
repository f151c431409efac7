/-
  Mile.Lib.Numbering
  ──────────────────
  **NUMBERING THE VALUES OF A SEQUENCE.**

  A probing table numbers the distinct values of a sequence in one pass: a value whose probe ends
  at a free slot goes there with the next number.
-/
import Mile.Lib.Probe

namespace Mile.Lib

open List Function

variable {κ : Type} [DecidableEq κ]

/-! ## §1. Distinct values. -/

def addNew (ds : List κ) (v : κ) : List κ := if v ∈ ds then ds else ds ++ [v]

def distinct (vs : List κ) : List κ := vs.foldl addNew []

theorem distinct_concat (vs : List κ) (v : κ) : distinct (vs ++ [v]) = addNew (distinct vs) v :=
  foldl_concat ..

variable {ds : List κ}

theorem addNew_of_mem {v : κ} (h : v ∈ ds) : addNew ds v = ds := if_pos h

theorem addNew_of_notMem {v : κ} (h : v ∉ ds) : addNew ds v = ds ++ [v] := if_neg h

theorem mem_addNew {v w : κ} : w ∈ addNew ds v ↔ w ∈ ds ∨ w = v := by
  unfold addNew
  split_ifs with h
  · refine ⟨.inl, ?_⟩
    rintro (hw | rfl)
    · exact hw
    · exact h
  · simp

theorem prefix_addNew (ds : List κ) (v : κ) : ds <+: addNew ds v := by
  unfold addNew
  split_ifs
  · exact prefix_refl ds
  · exact prefix_append ds [v]

theorem mem_distinct {vs : List κ} {v : κ} : v ∈ distinct vs ↔ v ∈ vs := by
  induction vs using reverseRecOn with
  | nil => rfl
  | append_singleton vs w ih => rw [distinct_concat, mem_addNew, ih]; simp

theorem nodup_distinct (vs : List κ) : (distinct vs).Nodup := by
  induction vs using reverseRecOn with
  | nil => exact nodup_nil
  | append_singleton vs w ih =>
    rw [distinct_concat]
    by_cases h : w ∈ distinct vs
    · rwa [addNew_of_mem h]
    · rw [addNew_of_notMem h]
      rw [← concat_eq_append]
      exact ih.concat h

theorem distinct_length_le (vs : List κ) : (distinct vs).length ≤ vs.length := by
  induction vs using reverseRecOn with
  | nil => exact le_refl _
  | append_singleton vs w ih =>
    rw [distinct_concat, addNew]
    split_ifs <;> simp <;> omega

theorem distinct_prefix (vs ws : List κ) : distinct vs <+: distinct (vs ++ ws) := by
  induction ws using reverseRecOn with
  | nil => rw [append_nil]
  | append_singleton ws w ih =>
    rw [← append_assoc, distinct_concat]
    exact ih.trans (prefix_addNew _ w)

/-! ## §2. The table. -/

/-- The probing table `key` of `n` slots holds the values `ds`, and `pos` is
the number of the value in a slot. -/
structure Numbered (n : Nat) (home : Option κ → Nat) (key : Nat → Option κ) (pos : Nat → Nat)
    (ds : List κ) : Prop where
  probed : Probed n none home n key
  pos_of_key : ∀ s < n, ∀ v, key s = some v → ds[pos s]? = some v
  slot_of_mem : ∀ v ∈ ds, ∃ s < n, key s = some v

section Table

variable {n : Nat} {home : Option κ → Nat} {key : Nat → Option κ} {pos : Nat → Nat} {ds : List κ}

omit [DecidableEq κ] in
theorem Numbered.init (n : Nat) (home : Option κ → Nat) (pos : Nat → Nat) :
    Numbered n home (fun _ => none) pos ([] : List κ) where
  probed := Probed.init n none home n
  pos_of_key := fun _ _ _ h => nomatch h
  slot_of_mem := fun _ h => nomatch h

variable (h : Numbered n home key pos ds)

include h

theorem Numbered.find_mem (hhome : ∀ k, home k < n) {v : κ} (hv : v ∈ ds) :
    ∃ s < n, findSlot n none home key n (some v) = some s ∧ key s = some v ∧
      ds[pos s]? = some v := by
  obtain ⟨s, hs, hkey⟩ := h.slot_of_mem v hv
  have hfind := h.probed.find hhome (le_refl n) hs (by rw [hkey]; exact Option.some_ne_none v)
  rw [hkey] at hfind
  exact ⟨s, hs, hfind, hkey, h.pos_of_key s hs v hkey⟩

/-- A value without a number gets a free slot. -/
theorem Numbered.find_new (hhome : ∀ k, home k < n) {v : κ} (hv : v ∉ ds) (hroom : ds.length < n) :
    ∃ s < n, findSlot n none home key n (some v) = some s ∧ key s = none := by
  cases hfind : findSlot n none home key n (some v) with
  | some s =>
    obtain ⟨hs, hfree | hkey⟩ := findSlot_some hhome hfind
    · exact ⟨s, hs, rfl, hfree⟩
    · exact absurd (mem_of_getElem? (h.pos_of_key s hs v hkey)) hv
  | none =>
    -- a full table has as many numbers as slots
    have hfull := (findSlot_eq_none_iff hhome).mp hfind
    have hpos : ∀ s < n, ∃ w, key s = some w ∧ ds[pos s]? = some w := by
      intro s hs
      obtain ⟨w, hw⟩ := Option.ne_none_iff_exists'.mp (hfull s hs).1
      exact ⟨w, hw, h.pos_of_key s hs w hw⟩
    have hcard : (Finset.range n).card ≤ (Finset.range ds.length).card := by
      refine Finset.card_le_card_of_injOn pos ?_ ?_
      · intro s hs
        obtain ⟨w, -, hw⟩ := hpos s (Finset.mem_range.mp hs)
        exact Finset.mem_coe.mpr (Finset.mem_range.mpr (List.getElem?_eq_some_iff.mp hw).1)
      · intro s hs t ht heq
        have hs' := Finset.mem_range.mp hs
        have ht' := Finset.mem_range.mp ht
        obtain ⟨w, hkw, hw⟩ := hpos s hs'
        obtain ⟨u, hku, hu⟩ := hpos t ht'
        have hwu : w = u := by
          have heq' : pos s = pos t := heq
          rw [heq', hu] at hw
          exact (Option.some.inj hw).symm
        exact h.probed.inj s t hs' ht' (hfull s hs').1 (by rw [hkw, hku, hwu])
    rw [Finset.card_range, Finset.card_range] at hcard
    omega

/-- **A new value** goes into the free slot its probe ended at, with the next
number. -/
theorem Numbered.add (hhome : ∀ k, home k < n) {v : κ} {s : Nat}
    (hfind : findSlot n none home key n (some v) = some s) (hfree : key s = none) :
    Numbered n home (update key s (some v)) (update pos s ds.length)
      (ds ++ [v]) where
  probed := h.probed.update hhome hfind hfree
  pos_of_key := by
    intro t ht w hw
    by_cases hts : t = s
    · subst hts
      rw [update_self] at hw ⊢
      rw [getElem?_concat_length, ← hw]
    · rw [update_of_ne hts] at hw ⊢
      have hold := h.pos_of_key t ht w hw
      rw [getElem?_append_left (List.getElem?_eq_some_iff.mp hold).1]
      exact hold
  slot_of_mem := by
    intro w hw
    rcases mem_append.mp hw with hold | hnew
    · obtain ⟨t, ht, hkey⟩ := h.slot_of_mem w hold
      have hts : t ≠ s := by
        rintro rfl
        rw [hfree] at hkey
        cases hkey
      exact ⟨t, ht, by rw [update_of_ne hts]; exact hkey⟩
    · rw [mem_singleton.mp hnew]
      exact ⟨s, (findSlot_some hhome hfind).1, update_self ..⟩

end Table

end Mile.Lib
