/-
  Mile.Lib.TopRows
  ────────────────
  **SORTING ROWS, AND THE FIRST ROWS OF SEVERAL SOURCES.**

  A comparator is a function to `Int` whose sign is the order of two rows.  One that can fail is
  given to `sortM`, a stable sort.
-/
import Mathlib

namespace Mile.Lib

open List

variable {α β ε : Type}

/-! ## §1. Comparators. -/

/-- A comparator whose sign is a total preorder. -/
structure LawfulCmp (cmp : α → α → Int) : Prop where
  swap : ∀ a b, cmp a b < 0 ↔ 0 < cmp b a
  trans : ∀ a b c, cmp a b ≤ 0 → cmp b c ≤ 0 → cmp a c ≤ 0

def lexCmp : List (α → α → Int) → α → α → Int
  | [], _, _ => 0
  | cmp :: cmps, a, b => if cmp a b = 0 then lexCmp cmps a b else cmp a b

theorem lexCmp_eq_zero {cmps : List (α → α → Int)} {a b : α} :
    lexCmp cmps a b = 0 ↔ ∀ cmp ∈ cmps, cmp a b = 0 := by
  induction cmps with
  | nil => simp [lexCmp]
  | cons cmp cmps ih =>
    unfold lexCmp
    by_cases h : cmp a b = 0
    · simp [h, ih]
    · simp [h]

namespace LawfulCmp

variable {cmp : α → α → Int} {a b c : α}

section

variable (h : LawfulCmp cmp)

include h

theorem nonneg_iff : 0 ≤ cmp a b ↔ cmp b a ≤ 0 := by
  have hswap := h.swap a b
  omega

theorem eq_zero_iff : cmp a b = 0 ↔ cmp a b ≤ 0 ∧ cmp b a ≤ 0 := by
  have hab := h.nonneg_iff (a := a) (b := b)
  omega

theorem refl (a : α) : cmp a a = 0 := by
  have hswap := h.swap a a
  omega

theorem trans_lt (hab : cmp a b ≤ 0) (hbc : cmp b c < 0) : cmp a c < 0 := by
  by_contra hac
  have hca : cmp c a ≤ 0 := h.nonneg_iff.mp (by omega)
  have hcb := h.trans c a b hca hab
  have hswap := h.swap b c
  omega

theorem lt_trans (hab : cmp a b < 0) (hbc : cmp b c ≤ 0) : cmp a c < 0 := by
  by_contra hac
  have hca : cmp c a ≤ 0 := h.nonneg_iff.mp (by omega)
  have hba := h.trans b c a hbc hca
  have hswap := h.swap a b
  omega

theorem eq_trans (hab : cmp a b = 0) (hbc : cmp b c = 0) : cmp a c = 0 := by
  obtain ⟨hab, hba⟩ := h.eq_zero_iff.mp hab
  obtain ⟨hbc, hcb⟩ := h.eq_zero_iff.mp hbc
  exact h.eq_zero_iff.mpr ⟨h.trans a b c hab hbc, h.trans c b a hcb hba⟩

theorem neg : LawfulCmp fun a b => -cmp a b where
  swap a b := by
    have hswap := h.swap b a
    omega
  trans a b c hab hbc := by
    have hba : cmp b a ≤ 0 := h.nonneg_iff.mp (by omega)
    have hcb : cmp c b ≤ 0 := h.nonneg_iff.mp (by omega)
    have hca := h.nonneg_iff.mpr (h.trans c b a hcb hba)
    omega

end

/-- Lexicographic comparisons are lawful. -/
theorem lex {cmps : List (α → α → Int)} (h : ∀ cmp ∈ cmps, LawfulCmp cmp) :
    LawfulCmp (lexCmp cmps) := by
  induction cmps with
  | nil => exact ⟨fun a b => by simp [lexCmp], fun a b c _ _ => by simp [lexCmp]⟩
  | cons cmp cmps ih =>
    have hcmp := h cmp (by simp)
    have hrest := ih fun cmp' hmem => h cmp' (mem_cons_of_mem _ hmem)
    constructor
    · intro a b
      have hswap := hcmp.swap a b
      have hswap' := hcmp.swap b a
      have hrestSwap := hrest.swap a b
      unfold lexCmp
      split_ifs <;> omega
    · intro a b c hab hbc
      have htrans := hrest.trans a b c
      unfold lexCmp at hab hbc ⊢
      -- who decides about `a, b` and about `b, c`
      split_ifs at hab with h1
      · split_ifs at hbc with h2
        · rw [if_pos (hcmp.eq_trans h1 h2)]
          exact htrans hab hbc
        · have hlt : cmp a c < 0 := hcmp.trans_lt (le_of_eq h1) (by omega)
          rw [if_neg (by omega)]
          omega
      · have hle : cmp b c ≤ 0 := by
          split_ifs at hbc with h2 <;> omega
        have hfirst : cmp a b < 0 := by omega
        have hlt : cmp a c < 0 := hcmp.lt_trans hfirst hle
        rw [if_neg (by omega)]
        omega

end LawfulCmp

theorem mapM_map_ok {γ : Type} {f : β → Except ε γ} {g : α → β} {h : α → γ} {l : List α}
    (hf : ∀ a ∈ l, f (g a) = .ok (h a)) : (l.map g).mapM f = .ok (l.map h) := by
  induction l with
  | nil => rfl
  | cons a l ih =>
    obtain ⟨hhead, htail⟩ := forall_mem_cons.mp hf
    rw [map_cons, mapM_cons, hhead, ih htail]
    rfl

/-! ## §2. A stable sort. -/

section Sorting

variable (cmp : α → α → Except ε Int)

def insertM (x : α) : List α → Except ε (List α)
  | [] => .ok [x]
  | y :: ys => do
    if (← cmp x y) ≤ 0 then return x :: y :: ys
    else return y :: (← insertM x ys)

def sortM : List α → Except ε (List α)
  | [] => .ok []
  | x :: xs => do insertM cmp x (← sortM xs)

variable {cmp} {x : α} {l s : List α}

theorem insertM_perm (h : insertM cmp x l = .ok s) : s.Perm (x :: l) := by
  induction l generalizing s with
  | nil =>
    cases h
    exact Perm.refl _
  | cons y ys ih =>
    rw [insertM] at h
    cases hcmp : cmp x y with
    | error e =>
      rw [hcmp] at h
      cases h
    | ok r =>
      simp only [hcmp, bind, Except.bind] at h
      split_ifs at h
      · cases h
        exact Perm.refl _
      · cases hins : insertM cmp x ys with
        | error e =>
          rw [hins] at h
          cases h
        | ok t =>
          rw [hins] at h
          cases h
          exact ((ih hins).cons y).trans (Perm.swap x y ys)

theorem sortM_perm (h : sortM cmp l = .ok s) : s.Perm l := by
  induction l generalizing s with
  | nil =>
    cases h
    exact Perm.refl _
  | cons x xs ih =>
    rw [sortM] at h
    cases hsort : sortM cmp xs with
    | error e =>
      rw [hsort] at h
      cases h
    | ok t =>
      simp only [hsort, bind, Except.bind] at h
      exact (insertM_perm h).trans ((ih hsort).cons x)

theorem insertM_ok (h : ∀ y ∈ l, ∃ r, cmp x y = .ok r) : ∃ s, insertM cmp x l = .ok s := by
  induction l with
  | nil => exact ⟨_, rfl⟩
  | cons y ys ih =>
    obtain ⟨⟨r, hr⟩, htail⟩ := forall_mem_cons.mp h
    obtain ⟨s, hs⟩ := ih htail
    simp only [insertM, hr, hs, bind, Except.bind]
    split_ifs
    · exact ⟨_, rfl⟩
    · exact ⟨_, rfl⟩

theorem sortM_ok (h : ∀ x ∈ l, ∀ y ∈ l, ∃ r, cmp x y = .ok r) : ∃ s, sortM cmp l = .ok s := by
  induction l with
  | nil => exact ⟨_, rfl⟩
  | cons x xs ih =>
    obtain ⟨t, ht⟩ := ih fun a ha b hb =>
      h a (mem_cons_of_mem _ ha) b (mem_cons_of_mem _ hb)
    simp only [sortM, ht, bind, Except.bind]
    refine insertM_ok fun y hy => h x (by simp) y ?_
    exact mem_cons_of_mem _ ((sortM_perm ht).mem_iff.mp hy)

theorem insertM_map (f : β → α) (x : β) (l : List β) :
    insertM cmp (f x) (l.map f) =
      (insertM (fun a b => cmp (f a) (f b)) x l).map (List.map f) := by
  induction l with
  | nil => rfl
  | cons y ys ih =>
    simp only [map_cons, insertM, bind, Except.bind]
    cases cmp (f x) (f y) with
    | error e => rfl
    | ok r =>
      simp only
      split_ifs
      · rfl
      · rw [ih]
        cases insertM (fun a b => cmp (f a) (f b)) x ys <;> rfl

theorem sortM_map (f : β → α) (l : List β) :
    sortM cmp (l.map f) = (sortM (fun a b => cmp (f a) (f b)) l).map (List.map f) := by
  induction l with
  | nil => rfl
  | cons x xs ih =>
    simp only [map_cons, sortM, ih, bind, Except.bind]
    cases sortM (fun a b => cmp (f a) (f b)) xs with
    | error e => rfl
    | ok t => exact insertM_map f x t

section Pairwise

variable {R : α → α → Prop} (htrans : ∀ x y z, R x y → R y z → R x z)

include htrans

/-- Inserting keeps the order. -/
theorem insertM_pairwise
    (hcmp : ∀ y ∈ l, ∀ r, cmp x y = .ok r → (r ≤ 0 → R x y) ∧ (0 < r → R y x))
    (hl : l.Pairwise R) (h : insertM cmp x l = .ok s) : s.Pairwise R := by
  induction l generalizing s with
  | nil =>
    cases h
    exact pairwise_singleton _ _
  | cons y ys ih =>
    obtain ⟨hhead, htail⟩ := forall_mem_cons.mp hcmp
    obtain ⟨hy, hys⟩ := pairwise_cons.mp hl
    cases hxy : cmp x y with
    | error e =>
      simp only [insertM, hxy, bind, Except.bind] at h
      cases h
    | ok r =>
      simp only [insertM, hxy, bind, Except.bind] at h
      split_ifs at h with hle
      · cases h
        have hxy' := (hhead r hxy).1 hle
        refine pairwise_cons.mpr ⟨?_, hl⟩
        intro z hz
        rcases mem_cons.mp hz with rfl | hz
        · exact hxy'
        · exact htrans x y z hxy' (hy z hz)
      · cases hins : insertM cmp x ys with
        | error e =>
          rw [hins] at h
          cases h
        | ok t =>
          rw [hins] at h
          cases h
          refine pairwise_cons.mpr ⟨?_, ih htail hys hins⟩
          intro z hz
          rcases mem_cons.mp ((insertM_perm hins).mem_iff.mp hz) with rfl | hz
          · exact (hhead r hxy).2 (by omega)
          · exact hy z hz

/-- **What a sort that does not fail has put in order**, for a comparison that
only some pairs have. -/
theorem sortM_pairwise
    (hcmp : ∀ x ∈ l, ∀ y ∈ l, ∀ r, cmp x y = .ok r → (r ≤ 0 → R x y) ∧ (0 < r → R y x))
    (h : sortM cmp l = .ok s) : s.Pairwise R := by
  induction l generalizing s with
  | nil =>
    cases h
    exact Pairwise.nil
  | cons x xs ih =>
    cases hsort : sortM cmp xs with
    | error e =>
      simp only [sortM, hsort, bind, Except.bind] at h
      cases h
    | ok t =>
      simp only [sortM, hsort, bind, Except.bind] at h
      have ht := ih (fun a ha b hb =>
        hcmp a (mem_cons_of_mem _ ha) b (mem_cons_of_mem _ hb)) hsort
      refine insertM_pairwise htrans (fun y hy => hcmp x (by simp) y ?_) ht h
      exact mem_cons_of_mem _ ((sortM_perm hsort).mem_iff.mp hy)

end Pairwise

variable {order : α → α → Int}

theorem sortM_sorted (horder : LawfulCmp order)
    (hcmp : ∀ x ∈ l, ∀ y ∈ l, cmp x y = .ok (order x y)) (h : sortM cmp l = .ok s) :
    s.Pairwise fun a b => order a b ≤ 0 := by
  refine sortM_pairwise horder.trans (fun x hx y hy r hr => ?_) h
  obtain rfl := Except.ok.inj ((hcmp x hx y hy).symm.trans hr)
  exact ⟨id, fun hpos => horder.nonneg_iff.mp hpos.le⟩

end Sorting

/-! ## §3. The order of the rows, and the first of them. -/

section Top

variable {order : α → α → Int}

/-- How many rows do not stand behind `r`. -/
def upTo (order : α → α → Int) (l : List α) (r : α) : Nat := l.countP fun x => order x r ≤ 0

/-- In an ordered list the rows that do not stand behind `r` are the first ones. -/
theorem getElem_le_iff (horder : LawfulCmp order) {s : List α} {r : α}
    (hs : s.Pairwise fun a b => order a b ≤ 0) {i : Nat} (hi : i < s.length) :
    order s[i] r ≤ 0 ↔ i < upTo order s r := by
  induction s generalizing i with
  | nil => exact absurd hi (Nat.not_lt_zero i)
  | cons x xs ih =>
    obtain ⟨hx, hxs⟩ := pairwise_cons.mp hs
    by_cases hxr : order x r ≤ 0
    · have hcount : upTo order (x :: xs) r = upTo order xs r + 1 := by
        simp [upTo, hxr]
      rw [hcount]
      cases i with
      | zero => simpa using hxr
      | succ i => simpa using ih hxs (by simpa using hi)
    · -- all the others stand behind `r` with the first
      have hbehind : ∀ y ∈ x :: xs, ¬order y r ≤ 0 := by
        intro y hy hyr
        rcases mem_cons.mp hy with rfl | hy
        · exact hxr hyr
        · exact hxr (horder.trans x y r (hx y hy) hyr)
      have hcount : upTo order (x :: xs) r = 0 := by
        refine countP_eq_zero.mpr fun y hy => ?_
        simpa using hbehind y hy
      simp only [hcount, Nat.not_lt_zero, iff_false]
      exact hbehind _ (getElem_mem hi)

/-- **A window of some of the rows.**  Ordered, some rows show in the places from `offset` to
`limit` what all rows show there, up to rows of equal rank, exactly if no such place lies
between the number of the former and the number of the latter up to some row. -/
theorem window_iff (horder : LawfulCmp order) {s t : List α}
    (hs : s.Pairwise fun a b => order a b ≤ 0) (ht : t.Pairwise fun a b => order a b ≤ 0)
    (hsub : ∀ r, upTo order s r ≤ upTo order t r) (hlen : s.length ≤ t.length)
    (offset limit : Nat) :
    Forall₂ (fun a b => order a b = 0) ((s.take limit).drop offset) ((t.take limit).drop offset) ↔
      ∀ r ∈ t, min (upTo order t r) limit ≤ max (upTo order s r) offset := by
  rw [forall₂_iff_get]
  simp only [length_drop, length_take, get_eq_getElem, getElem_drop, getElem_take]
  constructor
  · rintro ⟨hlength, hequal⟩ r -
    by_contra hlt
    obtain ⟨i, hi⟩ : ∃ i, i = max (upTo order s r) offset := ⟨_, rfl⟩
    have htlen : upTo order t r ≤ t.length := countP_le_length
    have hsi : i < s.length := by omega
    have hti : i < t.length := by omega
    have hzero := hequal (i - offset) (by omega) (by omega)
    simp only [show offset + (i - offset) = i by omega] at hzero
    have htr := (getElem_le_iff horder ht hti).mpr (show i < upTo order t r by omega)
    have hsr := (getElem_le_iff horder hs hsi).mp
      (horder.trans _ _ r (le_of_eq hzero) htr)
    omega
  · intro hcovers
    -- a place `i` of all rows has at least `i + 1` rows up to it
    have hplace : ∀ {i} (hi : i < t.length), i < upTo order t t[i] := fun hi =>
      (getElem_le_iff horder ht hi).mp (le_of_eq (horder.refl _))
    refine ⟨?_, fun i hsi hti => horder.eq_zero_iff.mpr ⟨?_, ?_⟩⟩
    · by_contra hne
      have hi : max s.length offset < t.length := by omega
      have hr := hcovers _ (getElem_mem hi)
      have hpos := hplace hi
      have hle : upTo order s t[max s.length offset] ≤ s.length := countP_le_length
      omega
    · refine (getElem_le_iff horder hs (by omega)).mpr ?_
      have hr := hcovers _ (getElem_mem (show offset + i < t.length by omega))
      have hpos := hplace (show offset + i < t.length by omega)
      omega
    · refine (getElem_le_iff horder ht (by omega)).mpr (lt_of_lt_of_le ?_ (hsub _))
      exact (getElem_le_iff horder hs (by omega)).mp (le_of_eq (horder.refl _))

/-- A source of rows: those it keeps and those it leaves out. -/
structure Source (α : Type) where
  kept : List α
  left : List α

/-- The source keeps its first `limit` rows. -/
structure Source.KeepsFirst (order : α → α → Int) (limit : Nat) (src : Source α) : Prop where
  full : src.left ≠ [] → limit ≤ src.kept.length
  first : ∀ x ∈ src.kept, ∀ y ∈ src.left, order x y ≤ 0

variable {limit : Nat} {sources : List (Source α)}

theorem upTo_flatMap (sources : List (Source α)) (r : α) :
    upTo order (sources.flatMap fun src => src.kept ++ src.left) r =
      upTo order (sources.flatMap Source.kept) r + upTo order (sources.flatMap Source.left) r := by
  rw [upTo, ← (flatMap_append_perm sources Source.kept Source.left).countP_eq, countP_append]
  rfl

/-- **Sources that keep their first rows** keep as many rows up to every one as there are, or
`limit` of them: if a row left out is not behind it, neither are those its source keeps. -/
theorem upTo_kept (horder : LawfulCmp order)
    (hsources : ∀ src ∈ sources, src.KeepsFirst order limit) (r : α) :
    min (upTo order (sources.flatMap fun src => src.kept ++ src.left) r) limit ≤
      upTo order (sources.flatMap Source.kept) r := by
  rw [upTo_flatMap]
  by_cases hleft : ∃ y ∈ sources.flatMap Source.left, order y r ≤ 0
  · obtain ⟨y, hy, hyr⟩ := hleft
    obtain ⟨src, hsrc, hy⟩ := mem_flatMap.mp hy
    have hcount : limit ≤ upTo order (sources.flatMap Source.kept) r := by
      calc limit ≤ src.kept.length := (hsources src hsrc).full (ne_nil_of_mem hy)
        _ = upTo order src.kept r := by
            refine (countP_eq_length.mpr fun x hx => ?_).symm
            simpa using horder.trans x y r ((hsources src hsrc).first x hx y hy) hyr
        _ ≤ upTo order (sources.flatMap Source.kept) r :=
            (sublist_flatten_of_mem (mem_map_of_mem hsrc)).countP_le
    omega
  · have hnone : upTo order (sources.flatMap Source.left) r = 0 := by
      refine countP_eq_zero.mpr fun y hy => ?_
      simpa using fun hyr => hleft ⟨y, hy, hyr⟩
    omega

end Top

end Mile.Lib
