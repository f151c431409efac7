/-
  Mile.DocDb.SetShape
  ───────────────────
  **THE LISTS THE SET OPERATIONS RETURN** (`storage/docdb/set_operator.c`, `rowid_list.c`).

  `rowid_list_add` relies on lists with just the nodes their rowids need.  `rowid_union` and
  `rowid_intersection` link a new node as soon as one is full.
-/
import Mile.DocDb.RowidSets

namespace Mile.DocDb

open Lib List

/-! ## §1. `rowid_list_for_each`. -/

section ForEach

variable {S σ : Type}

/-- `ERROR_TIMEOUT`. -/
def errorTimeout : Int := -999

/-- The rounds of `rowid_list_for_each` from the `i`-th rowid on, `n` of them:
every 100 rowids the clock is compared with the deadline (`late`).  No result
if a node is missing. -/
def forEachFrom (l : RowidList S) (func : UInt32 → σ → σ × Int) (late : Nat → Bool) :
    Nat → Nat → σ → Option (σ × Int)
  | 0, _, userData => some (userData, 0)
  | n + 1, i, userData =>
    (l.rowidAt i).bind fun rowid =>
      let r := func rowid userData
      if r.2 < 0 then some r
      else if (i + 1) % 100 = 0 ∧ late (i + 1) then some (r.1, errorTimeout)
      else forEachFrom l func late n (i + 1) r.1

/-- `rowid_list_for_each`; the list may be `NULL`. -/
def rowidListForEach (l : Option (RowidList S)) (func : UInt32 → σ → σ × Int) (late : Nat → Bool)
    (userData : σ) : Option (σ × Int) :=
  match l with
  | none => some (userData, 0)
  | some l => forEachFrom l func late l.rowidNum 0 userData

/-- The calls of `func` on rowids, one after another. -/
def visit (func : UInt32 → σ → σ × Int) (late : Nat → Bool) : Nat → List UInt32 → σ → σ × Int
  | _, [], userData => (userData, 0)
  | i, x :: xs, userData =>
    let r := func x userData
    if r.2 < 0 then r
    else if (i + 1) % 100 = 0 ∧ late (i + 1) then (r.1, errorTimeout)
    else visit func late (i + 1) xs r.1

variable {func : UInt32 → σ → σ × Int} {late : Nat → Bool}

theorem forEachFrom_holds {l : RowidList S} {xs : List UInt32} (h : Holds l xs) :
    ∀ {n i : Nat} {userData : σ}, i + n = xs.length →
      forEachFrom l func late n i userData = some (visit func late i (xs.drop i) userData)
  | 0, i, userData, hn => by
    rw [drop_of_length_le (by omega)]
    rfl
  | n + 1, i, userData, hn => by
    have hi : i < xs.length := by omega
    unfold forEachFrom
    rw [h.at_eq i hi, getElem?_eq_getElem hi, Option.bind_some, drop_eq_getElem_cons hi, visit]
    dsimp only
    split
    · rfl
    · split
      · rfl
      · exact forEachFrom_holds h (by omega)

theorem ResultHolds.forEach {r : Option (RowidList S)} {xs : List UInt32} (h : ResultHolds r xs)
    (func : UInt32 → σ → σ × Int) (late : Nat → Bool) (userData : σ) :
    rowidListForEach r func late userData = some (visit func late 0 xs userData) := by
  cases r with
  | none =>
    obtain rfl : xs = [] := h
    rfl
  | some l =>
    have hl : Holds l xs := h
    unfold rowidListForEach
    show forEachFrom l func late l.rowidNum 0 userData
      = some (visit func late 0 (xs.drop 0) userData)
    exact forEachFrom_holds hl (by rw [Nat.zero_add]; exact hl.num)

end ForEach

/-! ## §2. Shapes. -/

section Shapes

variable {S : Type} [Zero S] [Add S] {a b r : Option (RowidList S)} {xs ys : List UInt32}

/-- A result is `NULL` or a well-shaped list. -/
def Shaped (r : Option (RowidList S)) : Prop := ∀ l ∈ r, WellShaped l

variable {l : RowidList S}

omit [Zero S] [Add S] in
theorem shaped_some : Shaped (some l) ↔ WellShaped l :=
  ⟨fun h => h l rfl, fun h _ hl => Option.some.inj hl ▸ h⟩

omit [Zero S] [Add S] in
theorem shaped_none : Shaped (none : Option (RowidList S)) := fun _ hl => nomatch hl

omit [Zero S] [Add S] in
theorem Trailing.wellShaped_iff (h : Trailing l) : WellShaped l ↔ l.rowidNum % 256 ≠ 0 := by
  have hnodes := h.nodes_length
  refine ⟨fun hw => ?_, fun hne => ⟨by omega, h.tail_eq⟩⟩
  have hneed := hw.nodes_length
  omega

/-- **Unions**: a result that is not one of the lists is well shaped unless its
last node is full. -/
theorem shaped_union_iff (ha : ResultHolds a xs) (hb : ResultHolds b ys) (hsa : Shaped a)
    (hsb : Shaped b) (hunion : rowidUnion a b = some r) :
    Shaped r ↔ xs = [] ∨ ys = [] ∨ (mergeDesc xs ys).length % 256 ≠ 0 := by
  cases a with
  | none =>
    obtain rfl : xs = [] := ha
    cases hunion
    simp [hsb]
  | some a =>
    have ha' : Holds a xs := ha
    unfold rowidUnion at hunion
    cases b with
    | none =>
      obtain rfl : ys = [] := hb
      cases hunion
      split
      · simp [shaped_none]
      · simp [hsa]
    | some b =>
      have hb' : Holds b ys := hb
      by_cases ha0 : a.rowidNum = 0
      · simp only [if_pos ha0] at hunion
        cases hunion
        simp [ha'.rowidNum_eq_zero.mp ha0, hsb]
      · by_cases hb0 : b.rowidNum = 0
        · simp only [if_neg ha0, if_pos hb0] at hunion
          cases hunion
          simp [hb'.rowidNum_eq_zero.mp hb0, hsa]
        · obtain ⟨l, hl, hholds, htrail, -⟩ := unionLists_holds ha' hb'
          simp only [if_neg ha0, if_neg hb0, hl, Option.map_some] at hunion
          cases hunion
          rw [ha'.rowidNum_eq_zero] at ha0
          rw [hb'.rowidNum_eq_zero] at hb0
          rw [shaped_some, htrail.wellShaped_iff, hholds.num]
          simp [ha0, hb0]

/-- When the result of an intersection is well shaped. -/
theorem shaped_intersection_iff (hx : xs.Pairwise (· > ·)) (hy : ys.Pairwise (· > ·))
    (ha : ResultHolds a xs) (hb : ResultHolds b ys) (hsa : Shaped a) (hsb : Shaped b)
    (hinter : rowidIntersection a b = some r) :
    Shaped r ↔ xs.filter (· ∈ ys) = [] ∨ (xs.filter (· ∈ ys)).length % 256 ≠ 0 := by
  cases a with
  | none =>
    obtain rfl : xs = [] := ha
    cases hinter
    simp [shaped_none]
  | some a =>
    have ha' : Holds a xs := ha
    unfold rowidIntersection at hinter
    by_cases ha0 : a.rowidNum = 0
    · have hnil := ha'.rowidNum_eq_zero.mp ha0
      have hr : r = some a := by
        cases b <;> simp only [if_pos ha0] at hinter <;> exact (Option.some.inj hinter).symm
      rw [hr, hnil]
      simp [hsa]
    · cases b with
      | none =>
        obtain rfl : ys = [] := hb
        simp only [if_neg ha0] at hinter
        cases hinter
        simp [shaped_none]
      | some b =>
        have hb' : Holds b ys := hb
        by_cases hb0 : b.rowidNum = 0
        · simp only [if_neg ha0, if_pos hb0] at hinter
          cases hinter
          simp [hb'.rowidNum_eq_zero.mp hb0, hsb]
        · obtain ⟨l, hl, hholds, hcases⟩ := intersectionLists_holds hx hy ha' hb'
          simp only [if_neg ha0, if_neg hb0, hl, Option.map_some] at hinter
          cases hinter
          rw [shaped_some, ← hholds.rowidNum_eq_zero, ← hholds.num]
          rcases hcases with ⟨h0, hnodes, htail⟩ | ⟨hne, htrail⟩
          · exact ⟨fun _ => .inl h0, fun _ => ⟨by simp [hnodes, h0], by simp [hnodes, htail]⟩⟩
          · rw [htrail.wellShaped_iff]
            exact ⟨.inr, fun hor => hor.resolve_left hne⟩

omit [Add S] in
/-- Differences are well shaped. -/
theorem shaped_minus (hx : xs.Pairwise (· > ·)) (hy : ys.Pairwise (· > ·)) (ha : ResultHolds a xs)
    (hb : ResultHolds b ys) (hsa : Shaped a) (hminus : rowidMinus a b = some r) : Shaped r := by
  unfold rowidMinus at hminus
  cases a with
  | none =>
    cases hminus
    exact hsa
  | some a =>
    cases b with
    | none =>
      cases hminus
      exact hsa
    | some b =>
      dsimp only at hminus
      split at hminus
      · cases hminus
        exact hsa
      · obtain ⟨l, hl, -, hshape⟩ := minusLists_holds hx hy (show Holds a xs from ha)
          (show Holds b ys from hb)
        rw [hl, Option.map_some] at hminus
        cases hminus
        exact shaped_some.mpr hshape

end Shapes

/-! ## §3. Set operations. -/

section Sets

variable {S : Type} [Zero S] [Add S] {a b r : Option (RowidList S)} {xs ys zs : List UInt32}

/-- The result is a strictly descending list of the rowids of `A`: a walk
passes these, and if the list is well shaped, a rowid added to it comes behind
them, again in a well-shaped list. -/
def Lists (r : Option (RowidList S)) (A : Finset UInt32) : Prop :=
  ∃ zs : List UInt32, zs.Pairwise (· > ·) ∧ zs.toFinset = A ∧ ResultHolds r zs ∧
    (∀ {σ : Type} (func : UInt32 → σ → σ × Int) (late : Nat → Bool) (userData : σ),
      rowidListForEach r func late userData = some (visit func late 0 zs userData)) ∧
    (Shaped r → ∀ l ∈ r, ∀ x,
      Holds (rowidListAdd l x) (zs ++ [x]) ∧ WellShaped (rowidListAdd l x))

omit [Zero S] [Add S] in
theorem ResultHolds.lists (h : ResultHolds r zs) (hdesc : zs.Pairwise (· > ·)) :
    Lists r zs.toFinset := by
  refine ⟨zs, hdesc, rfl, h, fun func late userData => h.forEach func late userData, ?_⟩
  intro hshape l hl x
  cases hl
  exact Holds.add (shaped_some.mp hshape) h x

theorem desc_nodup (h : zs.Pairwise (· > ·)) : zs.Nodup := h.imp fun h => ne_of_gt h

theorem toFinset_mergeDesc : (mergeDesc xs ys).toFinset = xs.toFinset ∪ ys.toFinset := by
  ext e
  simp [mem_mergeDesc]

theorem toFinset_filter_mem : (xs.filter (· ∈ ys)).toFinset = xs.toFinset ∩ ys.toFinset := by
  ext e
  simp

theorem toFinset_filter_not_mem : (xs.filter (· ∉ ys)).toFinset = xs.toFinset \ ys.toFinset := by
  ext e
  simp

end Sets

/-- **ROWID SET OPERATIONS** are set operations on strictly descending
well-shaped lists.  Differences are well shaped; so are unions and
intersections, unless a union of two lists with rowids or an intersection with
rowids has a multiple of 256 of them. -/
theorem rowid_set_operations {S : Type} [Zero S] [Add S] {a b : Option (RowidList S)}
    {xs ys : List UInt32} (hx : xs.Pairwise (· > ·)) (hy : ys.Pairwise (· > ·))
    (ha : ResultHolds a xs) (hb : ResultHolds b ys) (hsa : Shaped a) (hsb : Shaped b) :
    (∃ r, rowidUnion a b = some r ∧ Lists r (xs.toFinset ∪ ys.toFinset) ∧
      (Shaped r ↔ xs = [] ∨ ys = [] ∨ (xs.toFinset ∪ ys.toFinset).card % 256 ≠ 0)) ∧
    (∃ r, rowidIntersection a b = some r ∧ Lists r (xs.toFinset ∩ ys.toFinset) ∧
      (Shaped r ↔ xs.toFinset ∩ ys.toFinset = ∅ ∨
        (xs.toFinset ∩ ys.toFinset).card % 256 ≠ 0)) ∧
    ∃ r, rowidMinus a b = some r ∧ Lists r (xs.toFinset \ ys.toFinset) ∧ Shaped r := by
  have hunion := mergeDesc_desc hx hy
  have hinter : (xs.filter (· ∈ ys)).Pairwise (· > ·) := hx.sublist filter_sublist
  have hminus : (xs.filter (· ∉ ys)).Pairwise (· > ·) := hx.sublist filter_sublist
  refine ⟨?_, ?_, ?_⟩
  · obtain ⟨r, hr, hholds⟩ := rowidUnion_holds ha hb
    have hlists := hholds.lists hunion
    have hcard := toFinset_card_of_nodup (desc_nodup hunion)
    rw [toFinset_mergeDesc] at hlists hcard
    refine ⟨r, hr, hlists, ?_⟩
    rw [shaped_union_iff ha hb hsa hsb hr, hcard]
  · obtain ⟨r, hr, hholds⟩ := rowidIntersection_holds hx hy ha hb
    have hlists := hholds.lists hinter
    have hcard := toFinset_card_of_nodup (desc_nodup hinter)
    rw [toFinset_filter_mem] at hlists hcard
    refine ⟨r, hr, hlists, ?_⟩
    rw [shaped_intersection_iff hx hy ha hb hsa hsb hr, hcard, ← toFinset_filter_mem,
      toFinset_eq_empty_iff]
  · obtain ⟨r, hr, hholds⟩ := rowidMinus_holds hx hy ha hb
    have hlists := hholds.lists hminus
    rw [toFinset_filter_not_mem] at hlists
    exact ⟨r, hr, hlists, shaped_minus hx hy ha hb hsa hr⟩

theorem rowid_set_operations_small :
    ∃ r : Option (RowidList Nat), rowidUnion (some (rowidListBatchAdd rowidListInit [3, 1]))
        (some (rowidListBatchAdd rowidListInit [2, 1])) = some r ∧
      Lists r (List.toFinset [3, 1] ∪ List.toFinset [2, 1]) ∧ Shaped r := by
  obtain ⟨⟨r, hr, hlists, hshape⟩, -⟩ := rowid_set_operations (S := Nat)
    (show [3, 1].Pairwise (· > ·) by decide) (show [2, 1].Pairwise (· > ·) by decide)
    (a := some (rowidListBatchAdd rowidListInit [3, 1]))
    (b := some (rowidListBatchAdd rowidListInit [2, 1]))
    (holds_batchAdd [3, 1]) (holds_batchAdd [2, 1]) (shaped_some.mpr ⟨rfl, rfl⟩)
    (shaped_some.mpr ⟨rfl, rfl⟩)
  exact ⟨r, hr, hlists, hshape.mpr (by decide)⟩

def longList : List UInt32 := (List.range 255).reverse.map fun n => UInt32.ofNat (n + 9)

/-- The union with a list of one more rowid has 256 of them in the first node,
and a second node; the next rowid goes to a third node, where no walk looks for
it. -/
theorem full_union_loses_add :
    ∃ (a b r : RowidList Nat), Holds a longList ∧ WellShaped a ∧ longList.Pairwise (· > ·) ∧
      Holds b [8] ∧ WellShaped b ∧ rowidUnion (some a) (some b) = some (some r) ∧
      r.rowidNum = 256 ∧ ¬ WellShaped r ∧ (rowidListAdd r 7).rowidAt 256 = some 0 := by
  have hall : ((rowidUnion (some (rowidListBatchAdd (rowidListInit : RowidList Nat) longList))
      (some (rowidListBatchAdd rowidListInit [8]))).bind id).any (fun r => decide
        (r.rowidNum = 256 ∧ r.nodes.length = 2 ∧ (rowidListAdd r 7).rowidAt 256 = some 0))
          = true := by decide +kernel
  rw [Option.any_eq_true_iff_get] at hall
  obtain ⟨hsome, hfacts⟩ := hall
  obtain ⟨q, hq, hr⟩ := Option.bind_eq_some_iff.mp (Option.some_get hsome).symm
  generalize Option.get _ hsome = r at hfacts hr
  obtain rfl : q = some r := hr
  obtain ⟨hnum, hnodes, hlost⟩ := of_decide_eq_true hfacts
  refine ⟨_, _, r, holds_batchAdd longList, ⟨by decide +kernel, by decide +kernel⟩,
    isChain_iff_pairwise.mp (by decide +kernel), holds_batchAdd [8], ⟨rfl, rfl⟩, hq, hnum,
    fun hshape => ?_, hlost⟩
  have hneed := hshape.nodes_length
  rw [hnum, hnodes] at hneed
  exact absurd hneed (by decide)

end Mile.DocDb
