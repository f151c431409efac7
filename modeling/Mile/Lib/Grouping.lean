/-
  Mile.Lib.Grouping
  ─────────────────
  **ROWS GROUPED BY A KEY.**

  A map from keys to accumulators, kept as an association list.  `Grouped`: one entry for each key
  of the rows, and in it an accumulator of the rows with that key.
-/
import Mathlib

namespace Mile.Lib

open List

variable {κ δ ε ρ : Type} [DecidableEq κ]

/-! ## §1. The map. -/

/-- The entry of `k` is changed; if there is none, a new one is put at the end. -/
def upsertM (new : Except ε δ) (change : δ → Except ε δ) (k : κ) :
    List (κ × δ) → Except ε (List (κ × δ))
  | [] => do return [(k, ← new)]
  | (k', d) :: entries =>
    if k' = k then do return (k', ← change d) :: entries
    else do return (k', d) :: (← upsertM new change k entries)

section Upsert

variable {new : Except ε δ} {change : δ → Except ε δ} {k : κ}

theorem upsertM_new {d : δ} (hnew : new = .ok d) {map : List (κ × δ)}
    (hk : k ∉ map.map Prod.fst) : upsertM new change k map = .ok (map ++ [(k, d)]) := by
  induction map with
  | nil => rw [upsertM, hnew]; rfl
  | cons e entries ih =>
    obtain ⟨k', d'⟩ := e
    rw [map_cons, mem_cons, not_or] at hk
    rw [upsertM, if_neg (Ne.symm hk.1), ih hk.2]
    rfl

theorem upsertM_change {d d' : δ} (hchange : change d = .ok d') {front back : List (κ × δ)}
    (hk : k ∉ front.map Prod.fst) :
    upsertM new change k (front ++ (k, d) :: back) = .ok (front ++ (k, d') :: back) := by
  induction front with
  | nil => rw [nil_append, upsertM, if_pos rfl, hchange]; rfl
  | cons e entries ih =>
    obtain ⟨k', e'⟩ := e
    rw [map_cons, mem_cons, not_or] at hk
    rw [cons_append, upsertM, if_neg (Ne.symm hk.1), ih hk.2]
    rfl

end Upsert

/-! ## §2. Columns. -/

def updateAtM {α : Type} (update : α → δ → Except ε δ) (index : α → Nat) (missing : ε) :
    List α → List δ → Except ε (List δ)
  | [], data => .ok data
  | a :: as, data =>
    match data[index a]? with
    | none => .error missing
    | some d => do updateAtM update index missing as (data.set (index a) (← update a d))

/-- **Updates of different columns** do what each does by itself, and nothing else. -/
theorem updateAtM_ok {α : Type} {update : α → δ → Except ε δ} {index : α → Nat} {missing : ε}
    {as : List α} (hnodup : (as.map index).Nodup) {data : List δ}
    (h : ∀ a ∈ as, ∃ d d', data[index a]? = some d ∧ update a d = .ok d') :
    ∃ data', updateAtM update index missing as data = .ok data' ∧ data'.length = data.length ∧
      (∀ a ∈ as, ∃ d d', data[index a]? = some d ∧ update a d = .ok d' ∧
        data'[index a]? = some d') ∧
      ∀ i, i ∉ as.map index → data'[i]? = data[i]? := by
  induction as generalizing data with
  | nil => exact ⟨data, rfl, rfl, by simp, fun _ _ => rfl⟩
  | cons a as ih =>
    obtain ⟨ha, has⟩ := nodup_cons.mp hnodup
    obtain ⟨d, d', hd, hd'⟩ := h a mem_cons_self
    have hother : ∀ i, i ≠ index a → (data.set (index a) d')[i]? = data[i]? := fun i hi =>
      getElem?_set_ne (Ne.symm hi)
    have hne : ∀ b ∈ as, index b ≠ index a := fun b hb heq =>
      ha (heq ▸ mem_map_of_mem hb)
    -- the later updates see their own columns as they were
    have hrest : ∀ b ∈ as, ∃ e e', (data.set (index a) d')[index b]? = some e ∧
        update b e = .ok e' := by
      intro b hb
      rw [hother _ (hne b hb)]
      exact h b (mem_cons_of_mem _ hb)
    obtain ⟨data', hrun, hlen, hupdated, hkept⟩ := ih has hrest
    refine ⟨data', ?_, hlen.trans length_set, ?_, ?_⟩
    · simp only [updateAtM, hd, hd']
      exact hrun
    · intro b hb
      rcases mem_cons.mp hb with rfl | hb
      · refine ⟨d, d', hd, hd', ?_⟩
        rw [hkept _ ha]
        exact getElem?_set_self (List.getElem?_eq_some_iff.mp hd).1
      · obtain ⟨e, e', he, he', hget⟩ := hupdated b hb
        rw [hother _ (hne b hb)] at he
        exact ⟨e, e', he, he', hget⟩
    · intro i hi
      rw [map_cons, mem_cons, not_or] at hi
      rw [hkept i hi.2, hother i hi.1]

/-! ## §3. What a map holds. -/

variable (key : ρ → κ) (Holds : List ρ → δ → Prop)

def rowsOf (k : κ) (rows : List ρ) : List ρ := rows.filter fun r => key r = k

/-- One entry for each key of the rows, and in it an accumulator of the rows with
that key. -/
structure Grouped (rows : List ρ) (map : List (κ × δ)) : Prop where
  nodup : (map.map Prod.fst).Nodup
  mem_keys : ∀ k, k ∈ map.map Prod.fst ↔ k ∈ rows.map key
  holds : ∀ e ∈ map, Holds (rowsOf key e.1 rows) e.2

variable {key Holds} {rows rows' taken : List ρ} {map map' : List (κ × δ)} {k : κ}

@[simp] theorem rowsOf_append :
    rowsOf key k (rows ++ rows') = rowsOf key k rows ++ rowsOf key k rows' :=
  filter_append ..

theorem mem_rowsOf {r : ρ} : r ∈ rowsOf key k rows ↔ r ∈ rows ∧ key r = k := by
  rw [rowsOf, mem_filter, decide_eq_true_eq]

theorem rowsOf_all (h : ∀ r ∈ taken, key r = k) : rowsOf key k taken = taken :=
  filter_eq_self.mpr fun r hr => decide_eq_true (h r hr)

theorem rowsOf_none (h : ∀ r ∈ taken, key r ≠ k) : rowsOf key k taken = [] :=
  filter_eq_nil_iff.mpr fun r hr => by simpa using h r hr

theorem Grouped.nil : Grouped key Holds [] ([] : List (κ × δ)) where
  nodup := nodup_nil
  mem_keys k := by simp
  holds e he := absurd he not_mem_nil

theorem Grouped.eq_nil (h : Grouped key Holds [] map) : map = [] := by
  refine eq_nil_iff_forall_not_mem.mpr fun e he => ?_
  have hkey := (h.mem_keys e.1).mp (mem_map_of_mem he)
  exact absurd hkey not_mem_nil

/-- Rows of one key go to their group. -/
theorem Grouped.upsert (h : Grouped key Holds rows map) {new : Except ε δ}
    {change : δ → Except ε δ} (hne : taken ≠ []) (hkey : ∀ r ∈ taken, key r = k)
    (hnew : ∃ d, new = .ok d ∧ Holds taken d)
    (hchange : ∀ d, Holds (rowsOf key k rows) d →
      ∃ d', change d = .ok d' ∧ Holds (rowsOf key k rows ++ taken) d') :
    ∃ map', upsertM new change k map = .ok map' ∧ Grouped key Holds (rows ++ taken) map' := by
  -- the keys of the rows, old and new
  have hkeys : ∀ k', k' ∈ (rows ++ taken).map key ↔ k' ∈ rows.map key ∨ k' = k := by
    intro k'
    rw [map_append, mem_append]
    refine or_congr_right ⟨?_, ?_⟩
    · rintro hmem
      obtain ⟨r, hr, rfl⟩ := mem_map.mp hmem
      exact hkey r hr
    · rintro rfl
      obtain ⟨r, hr⟩ := exists_mem_of_ne_nil taken hne
      exact mem_map.mpr ⟨r, hr, hkey r hr⟩
  -- an entry of another key holds what it held
  have hother : ∀ e ∈ map, e.1 ≠ k → Holds (rowsOf key e.1 (rows ++ taken)) e.2 := by
    intro e he hek
    have hnone : rowsOf key e.1 taken = [] :=
      rowsOf_none fun r hr heq => hek (heq.symm.trans (hkey r hr))
    rw [rowsOf_append, hnone, append_nil]
    exact h.holds e he
  by_cases hk : k ∈ map.map Prod.fst
  · -- the group is there
    obtain ⟨⟨k', d⟩, hmem, rfl⟩ := mem_map.mp hk
    obtain ⟨front, back, rfl⟩ := append_of_mem hmem
    obtain ⟨d', hd', hholds⟩ := hchange d (h.holds _ hmem)
    have hnodup := h.nodup
    rw [map_append, map_cons, nodup_append] at hnodup
    obtain ⟨-, hback, hdisjoint⟩ := hnodup
    have hfront : k' ∉ front.map Prod.fst := fun hf => hdisjoint _ hf _ mem_cons_self rfl
    have hsame : (front ++ (k', d') :: back).map Prod.fst =
        (front ++ (k', d) :: back).map Prod.fst := by
      simp only [map_append, map_cons]
    refine ⟨front ++ (k', d') :: back, upsertM_change hd' hfront, ?_, ?_, ?_⟩
    · rw [hsame]
      exact h.nodup
    · intro k''
      rw [hsame, hkeys, h.mem_keys]
      refine (or_iff_left_of_imp ?_).symm
      rintro rfl
      exact (h.mem_keys _).mp hk
    · intro e he
      rcases mem_append.mp he with hin | hin
      · refine hother e (mem_append_left _ hin) ?_
        intro (heq : e.1 = k')
        exact hfront (heq ▸ mem_map_of_mem hin)
      rcases mem_cons.mp hin with rfl | hin
      · rw [rowsOf_append, rowsOf_all hkey]
        exact hholds
      · refine hother e (mem_append_right _ (mem_cons_of_mem _ hin)) ?_
        intro (heq : e.1 = k')
        have hmem' : e.1 ∈ back.map Prod.fst := mem_map_of_mem hin
        exact (nodup_cons.mp hback).1 (heq ▸ hmem')
  · -- a new group
    obtain ⟨d, hd, hholds⟩ := hnew
    have hold : rowsOf key k rows = [] := by
      refine rowsOf_none fun r hr heq => hk ((h.mem_keys k).mpr ?_)
      exact mem_map.mpr ⟨r, hr, heq⟩
    refine ⟨map ++ [(k, d)], upsertM_new hd hk, ?_, ?_, ?_⟩
    · rw [map_append, nodup_append]
      refine ⟨h.nodup, nodup_singleton _, ?_⟩
      intro a ha b hb hab
      rw [map_singleton, mem_singleton] at hb
      rw [hab, hb] at ha
      exact hk ha
    · intro k'
      rw [map_append, mem_append, hkeys, h.mem_keys, map_singleton, mem_singleton]
    · intro e he
      rcases mem_append.mp he with hin | hin
      · refine hother e hin ?_
        intro heq
        exact hk (heq ▸ mem_map_of_mem hin)
      · rw [mem_singleton.mp hin, rowsOf_append, hold, nil_append, rowsOf_all hkey]
        exact hholds

/-! ## §4. Two maps of the same rows. -/

/-- The rows by their keys are all rows. -/
theorem perm_flatMap_rowsOf {keys : List κ} (hnodup : keys.Nodup) :
    ∀ rows : List ρ, (∀ r ∈ rows, key r ∈ keys) →
      (keys.flatMap fun k => rowsOf key k rows).Perm rows := by
  induction keys with
  | nil =>
    intro rows hrows
    cases rows with
    | nil => exact Perm.refl _
    | cons r _ => exact absurd (hrows r mem_cons_self) not_mem_nil
  | cons k keys ih =>
    intro rows hrows
    obtain ⟨hk, hkeys⟩ := nodup_cons.mp hnodup
    -- the other rows have the other keys
    have hrest := ih hkeys (rows.filter fun r => !decide (key r = k)) fun r hr => by
      obtain ⟨hmem, hne⟩ := mem_filter.mp hr
      refine (mem_cons.mp (hrows r hmem)).resolve_left ?_
      simpa using hne
    have hsame : ∀ k' ∈ keys,
        rowsOf key k' (rows.filter fun r => !decide (key r = k)) = rowsOf key k' rows := by
      intro k' hk'
      rw [rowsOf, filter_filter]
      refine filter_congr fun r _ => ?_
      by_cases hr : key r = k'
      · have hne : key r ≠ k := by
          rintro rfl
          exact hk (hr ▸ hk')
        simp [hr, hr ▸ hne]
      · simp [hr]
    rw [flatMap_cons]
    rw [flatMap_congr hsame] at hrest
    exact (Perm.append_left _ hrest).trans (filter_append_perm _ rows)

theorem Grouped.perm_flatMap (h : Grouped key Holds rows map) :
    (map.flatMap fun e => rowsOf key e.1 rows).Perm rows := by
  have hperm : ((map.map Prod.fst).flatMap fun k => rowsOf key k rows).Perm rows :=
    perm_flatMap_rowsOf h.nodup rows fun r hr => (h.mem_keys _).mpr (mem_map_of_mem hr)
  rwa [flatMap_map] at hperm

def ReadsSame {γ : Type} (Holds : List ρ → δ → Prop) (out : δ → γ) : Prop :=
  ∀ rows rows' d d', rows.Perm rows' → Holds rows d → Holds rows' d' → out d = out d'

theorem Grouped.mem_out {γ : Type} {out : δ → γ} (hout : ReadsSame Holds out)
    (h : Grouped key Holds rows map) (h' : Grouped key Holds rows' map')
    (hperm : rows.Perm rows') {e : κ × δ} (he : e ∈ map) :
    (e.1, out e.2) ∈ map'.map fun e => (e.1, out e.2) := by
  have hkey : e.1 ∈ map'.map Prod.fst := by
    rw [h'.mem_keys, ← (hperm.map key).mem_iff, ← h.mem_keys]
    exact mem_map_of_mem he
  obtain ⟨e', he', hek⟩ := mem_map.mp hkey
  refine mem_map.mpr ⟨e', he', Prod.ext hek ?_⟩
  refine hout _ _ _ _ ?_ (h'.holds e' he') (h.holds e he)
  rw [hek]
  exact (hperm.filter _).symm

theorem Grouped.perm_out {γ : Type} {out : δ → γ} (hout : ReadsSame Holds out)
    (h : Grouped key Holds rows map) (h' : Grouped key Holds rows' map')
    (hperm : rows.Perm rows') :
    (map.map fun e => (e.1, out e.2)).Perm (map'.map fun e => (e.1, out e.2)) := by
  have hnodup : ∀ m : List (κ × δ), (m.map Prod.fst).Nodup →
      (m.map fun e => (e.1, out e.2)).Nodup := by
    intro m hm
    refine Nodup.of_map Prod.fst ?_
    rwa [map_map]
  refine (perm_ext_iff_of_nodup (hnodup _ h.nodup) (hnodup _ h'.nodup)).mpr fun p => ⟨?_, ?_⟩
  · intro hp
    obtain ⟨e, he, rfl⟩ := mem_map.mp hp
    exact h.mem_out hout h' hperm he
  · intro hp
    obtain ⟨e, he, rfl⟩ := mem_map.mp hp
    exact h'.mem_out hout h hperm.symm he

end Mile.Lib
