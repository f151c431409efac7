/-
  Mile.Lib.OrderedStore
  ─────────────────────
  **ORDERED STORES.**

  A finite map whose entries stand in the order of their keys' ranks; two keys of one rank are one
  key.  It is read by key, or by an iterator that seeks a key and walks on.
-/
import Mathlib

namespace Mile.Lib

open List

/-! ## §1. Walks along a list. -/

section Walk

variable {γ : Type} {p q : γ → Bool} {l : List γ}

theorem dropWhile_eq_filter (h : l.Pairwise fun a b => p b = true → p a = true) :
    l.dropWhile p = l.filter fun a => !p a := by
  induction l with
  | nil => rfl
  | cons a l ih =>
    obtain ⟨hhead, htail⟩ := pairwise_cons.mp h
    cases ha : p a with
    | true => simp [ha, ih htail]
    | false =>
      have hrest : ∀ b ∈ l, (!p b) = true := by
        intro b hb
        cases hpb : p b with
        | false => rfl
        | true => exact absurd (hhead b hb hpb) (by simp [ha])
      rw [dropWhile_cons_of_neg (by simp [ha]), filter_cons_of_pos (by simp [ha]),
        filter_eq_self.mpr hrest]

theorem takeWhile_eq_filter (h : l.Pairwise fun a b => p b = true → p a = true) :
    l.takeWhile p = l.filter p := by
  induction l with
  | nil => rfl
  | cons a l ih =>
    obtain ⟨hhead, htail⟩ := pairwise_cons.mp h
    cases ha : p a with
    | true => simp [ha, ih htail]
    | false =>
      have hrest : ∀ b ∈ l, ¬p b = true := fun b hb hpb =>
        absurd (hhead b hb hpb) (by simp [ha])
      rw [takeWhile_cons_of_neg (by simp [ha]), filter_cons_of_neg (by simp [ha]),
        filter_eq_nil_iff.mpr hrest]

end Walk

/-! ## §2. Stores. -/

variable {κ α : Type} [LinearOrder α]

/-- A store: entries in the order of the ranks of their keys. -/
structure OrderedStore (rank : κ → α) (β : Type) where
  entries : List (κ × β)
  sorted : entries.Pairwise fun a b => rank a.1 < rank b.1

namespace OrderedStore

variable {rank : κ → α} {β : Type}

def empty : OrderedStore rank β := ⟨[], Pairwise.nil⟩

variable (rank) in
def insertEntry (k : κ) (v : β) : List (κ × β) → List (κ × β)
  | [] => [(k, v)]
  | e :: es =>
    if rank k < rank e.1 then (k, v) :: e :: es
    else if rank e.1 < rank k then e :: insertEntry k v es
    else (k, v) :: es

/-- An entry replaces the one of its rank. -/
theorem mem_insertEntry {k : κ} {v : β} {es : List (κ × β)} {x : κ × β}
    (h : es.Pairwise fun a b => rank a.1 < rank b.1) :
    x ∈ insertEntry rank k v es ↔ x = (k, v) ∨ x ∈ es ∧ rank x.1 ≠ rank k := by
  induction es with
  | nil => simp [insertEntry]
  | cons e es ih =>
    obtain ⟨hhead, htail⟩ := pairwise_cons.mp h
    unfold insertEntry
    split_ifs with hlt hgt
    · -- all entries rank above the new one
      have habove : ∀ y ∈ e :: es, rank k < rank y.1 := by
        intro y hy
        rcases mem_cons.mp hy with rfl | hy
        · exact hlt
        · exact hlt.trans (hhead y hy)
      rw [mem_cons]
      exact or_congr_right ⟨fun hx => ⟨hx, (habove x hx).ne'⟩, fun hx => hx.1⟩
    · rw [mem_cons, ih htail, mem_cons]
      constructor
      · rintro (rfl | rfl | ⟨hx, hne⟩)
        · exact .inr ⟨.inl rfl, hgt.ne⟩
        · exact .inl rfl
        · exact .inr ⟨.inr hx, hne⟩
      · rintro (rfl | ⟨rfl | hx, hne⟩)
        · exact .inr (.inl rfl)
        · exact .inl rfl
        · exact .inr (.inr ⟨hx, hne⟩)
    · have heq : rank e.1 = rank k := le_antisymm (not_lt.mp hlt) (not_lt.mp hgt)
      rw [mem_cons, mem_cons]
      constructor
      · rintro (rfl | hx)
        · exact .inl rfl
        · exact .inr ⟨.inr hx, fun hxk => (hhead x hx).ne (heq.trans hxk.symm)⟩
      · rintro (rfl | ⟨rfl | hx, hne⟩)
        · exact .inl rfl
        · exact absurd heq hne
        · exact .inr hx

/-- Inserting keeps the order. -/
theorem insertEntry_sorted {k : κ} {v : β} {es : List (κ × β)}
    (h : es.Pairwise fun a b => rank a.1 < rank b.1) :
    (insertEntry rank k v es).Pairwise fun a b => rank a.1 < rank b.1 := by
  induction es with
  | nil => exact pairwise_singleton _ _
  | cons e es ih =>
    obtain ⟨hhead, htail⟩ := pairwise_cons.mp h
    unfold insertEntry
    split_ifs with hlt hgt
    · refine pairwise_cons.mpr ⟨?_, h⟩
      intro y hy
      rcases mem_cons.mp hy with rfl | hy
      · exact hlt
      · exact hlt.trans (hhead y hy)
    · refine pairwise_cons.mpr ⟨?_, ih htail⟩
      intro y hy
      rcases (mem_insertEntry htail).mp hy with rfl | ⟨hy, -⟩
      · exact hgt
      · exact hhead y hy
    · have heq : rank e.1 = rank k := le_antisymm (not_lt.mp hlt) (not_lt.mp hgt)
      refine pairwise_cons.mpr ⟨fun y hy => ?_, htail⟩
      show rank k < rank y.1
      exact heq ▸ hhead y hy

def put (s : OrderedStore rank β) (k : κ) (v : β) : OrderedStore rank β :=
  ⟨insertEntry rank k v s.entries, insertEntry_sorted s.sorted⟩

def get (s : OrderedStore rank β) (k : κ) : Option β :=
  (s.entries.find? fun e => rank e.1 = rank k).map Prod.snd

def seek (s : OrderedStore rank β) (k : κ) : List (κ × β) :=
  s.entries.dropWhile fun e => rank e.1 < rank k

@[simp] theorem empty_entries : (empty : OrderedStore rank β).entries = [] := rfl

/-! ## §3. What a store holds. -/

variable (s : OrderedStore rank β) {k : κ} {v : β}

theorem entry_unique {a b : κ × β} (ha : a ∈ s.entries) (hb : b ∈ s.entries)
    (h : rank a.1 = rank b.1) : a = b := by
  have hsorted := s.sorted
  generalize s.entries = es at ha hb hsorted
  induction es with
  | nil => cases ha
  | cons e es ih =>
    obtain ⟨hhead, htail⟩ := pairwise_cons.mp hsorted
    rcases mem_cons.mp ha with rfl | ha'
    · rcases mem_cons.mp hb with rfl | hb'
      · rfl
      · exact absurd h (hhead b hb').ne
    · rcases mem_cons.mp hb with rfl | hb'
      · exact absurd h (hhead a ha').ne'
      · exact ih ha' hb' htail

theorem get_eq_some_iff : s.get k = some v ↔ ∃ k', rank k' = rank k ∧ (k', v) ∈ s.entries := by
  unfold get
  constructor
  · intro h
    obtain ⟨⟨k', v'⟩, hfind, rfl⟩ := Option.map_eq_some_iff.mp h
    exact ⟨k', by simpa using find?_some hfind, mem_of_find?_eq_some hfind⟩
  · rintro ⟨k', hk', hmem⟩
    cases hfind : s.entries.find? fun e => decide (rank e.1 = rank k) with
    | none => exact absurd hk' (by simpa using find?_eq_none.mp hfind _ hmem)
    | some e =>
      have hrank : rank e.1 = rank k := by simpa using find?_some hfind
      have heq := s.entry_unique (mem_of_find?_eq_some hfind) hmem (hrank.trans hk'.symm)
      rw [heq]
      rfl

theorem mem_put {x : κ × β} :
    x ∈ (s.put k v).entries ↔ x = (k, v) ∨ x ∈ s.entries ∧ rank x.1 ≠ rank k :=
  mem_insertEntry s.sorted

/-- Reading after a write. -/
theorem get_put (k' : κ) : (s.put k v).get k' = if rank k' = rank k then some v else s.get k' := by
  refine Option.ext fun w => ?_
  rw [get_eq_some_iff]
  simp only [mem_put]
  split_ifs with h
  · rw [Option.some.injEq]
    constructor
    · rintro ⟨k'', hk'', heq | ⟨-, hne⟩⟩
      · exact (Prod.mk.inj heq).2.symm
      · exact absurd (hk''.trans h) hne
    · rintro rfl
      exact ⟨k, h.symm, .inl rfl⟩
  · rw [get_eq_some_iff]
    constructor
    · rintro ⟨k'', hk'', heq | ⟨hmem, -⟩⟩
      · exact absurd (hk''.symm.trans (congrArg rank (Prod.mk.inj heq).1)) h
      · exact ⟨k'', hk'', hmem⟩
    · rintro ⟨k'', hk'', hmem⟩
      exact ⟨k'', hk'', .inr ⟨hmem, fun hrank => h (hk''.symm.trans hrank)⟩⟩

theorem seek_sublist (k : κ) : (s.seek k).Sublist s.entries := dropWhile_sublist _

theorem seek_eq_filter (k : κ) : s.seek k = s.entries.filter fun e => rank k ≤ rank e.1 := by
  unfold seek
  rw [dropWhile_eq_filter (s.sorted.imp fun hab hb => ?_)]
  · simp only [← decide_not, not_lt]
  · exact decide_eq_true (hab.trans (of_decide_eq_true hb))

end OrderedStore

end Mile.Lib
