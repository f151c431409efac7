/-
  Mile.DocDb.RowidSets
  ────────────────────
  **INTERSECTION AND DIFFERENCE OF ROWID LISTS** (`storage/docdb/set_operator.c`).

  `rowid_intersection` writes a new list, as `rowid_union` does.  `rowid_minus` and
  `rowid_fulltext_hence` write to the place `k` of the list they read at `i`, and `k` never
  overtakes `i`.
-/
import Mile.Lib.Descending
import Mile.DocDb.SetOperator

namespace Mile.DocDb

open Lib List

/-! ## §1. The functions. -/

section Functions

variable {S : Type} [Zero S] [Add S]

/-- The body of the loop of `rowid_intersection`. -/
def intersectionStep (a b : RowidList S) (st : UnionState S) : Option (UnionState S) :=
  match a.entryAt st.i, b.entryAt st.j with
  | some x, some y =>
    if x.1 > y.1 then some { st with i := st.i + 1 }
    else if x.1 < y.1 then some { st with j := st.j + 1 }
    else some { st.write x.1 (addScores x.2 y.2) with i := st.i + 1, j := st.j + 1 }
  | _, _ => none

/-- `rowid_intersection` of two lists that are not empty; a first list without
common rowids is emptied and returned. -/
def intersectionLists (a b : RowidList S) : Option (RowidList S) :=
  (walkLoop a.rowidNum b.rowidNum (intersectionStep a b) (a.rowidNum + b.rowidNum + 1)
    ⟨0, 0, 0, [RowidNode.zero]⟩).map fun st =>
      if st.k = 0 then ⟨0, [], 0⟩ else ⟨st.k, st.nodes, st.nodes.length - 1⟩

/-- `rowid_intersection`; a list may be `NULL`. -/
def rowidIntersection (a b : Option (RowidList S)) : Option (Option (RowidList S)) :=
  match a, b with
  | none, _ => some none
  | some a, none => some (if a.rowidNum = 0 then some a else none)
  | some a, some b =>
    if a.rowidNum = 0 then some (some a)
    else if b.rowidNum = 0 then some (some b)
    else (intersectionLists a b).map some

/-- Rowid and score written over place `k` of the list's own nodes.  No result
if there is no such node. -/
def UnionState.overwrite (st : UnionState S) (rowid : UInt32) (score : Option (S → S)) :
    Option (UnionState S) :=
  if st.k / 256 < st.nodes.length then
    some { st with
      k := st.k + 1
      nodes := st.nodes.modify (st.k / 256) (·.put st.k rowid score) }
  else none

/-- Rowid and score at place `i` of the list's own nodes. -/
def UnionState.entryAt (st : UnionState S) (i : Nat) : Option (UInt32 × Option S) :=
  RowidList.entryAt ⟨0, st.nodes, 0⟩ i

/-- The body of the first loop of `rowid_minus`; the scores stay where they are. -/
def minusStep (b : RowidList S) (st : UnionState S) : Option (UnionState S) :=
  match st.entryAt st.i, b.entryAt st.j with
  | some x, some y =>
    if x.1 > y.1 then (st.overwrite x.1 none).map fun st' => { st' with i := st.i + 1 }
    else if x.1 < y.1 then some { st with j := st.j + 1 }
    else some { st with i := st.i + 1, j := st.j + 1 }
  | _, _ => none

/-- The second loop of `rowid_minus`. -/
def minusRest (num : Nat) : Nat → UnionState S → Option (UnionState S)
  | 0, _ => none
  | fuel + 1, st =>
    if st.i < num then
      match st.entryAt st.i with
      | some x =>
        (st.overwrite x.1 none).bind fun st' => minusRest num fuel { st' with i := st.i + 1 }
      | none => none
    else some st

/-- `rowid_minus` of two lists that are not empty.  The chain is cut behind the
node of the last rowid. -/
def minusLists (a b : RowidList S) : Option (RowidList S) :=
  (walkLoop a.rowidNum b.rowidNum (minusStep b) (a.rowidNum + b.rowidNum + 1)
    ⟨0, 0, 0, a.nodes⟩).bind fun st =>
      (minusRest a.rowidNum (a.rowidNum + 1) st).map fun st' =>
        if st'.k = 0 then ⟨0, [], 0⟩
        else ⟨st'.k, st'.nodes.take ((st'.k - 1) / 256 + 1), (st'.k - 1) / 256⟩

/-- `rowid_minus`; a list may be `NULL`. -/
def rowidMinus (a b : Option (RowidList S)) : Option (Option (RowidList S)) :=
  match a, b with
  | some a, some b =>
    if a.rowidNum = 0 ∨ b.rowidNum = 0 then some (some a) else (minusLists a b).map some
  | a, _ => some a

/-- The body of the loop of `rowid_fulltext_hence`.  No result if a node has no
scores. -/
def henceStep (b : RowidList S) (st : UnionState S) : Option (UnionState S) :=
  match st.entryAt st.i, b.entryAt st.j with
  | some (x, sx), some (y, sy) =>
    if x > y then
      match sx, (st.entryAt st.k).bind (·.2) with
      | some s, some _ =>
        (st.overwrite x (some fun _ => s)).map fun st' => { st' with i := st.i + 1 }
      | _, _ => none
    else if x < y then some { st with j := st.j + 1 }
    else
      match sx, sy, (st.entryAt st.k).bind (·.2) with
      | some s, some s', some _ =>
        (st.overwrite x (some fun _ => s + s')).map fun st' =>
          { st' with i := st.i + 1, j := st.j + 1 }
      | _, _, _ => none
  | _, _ => none

/-- `rowid_fulltext_hence` of two lists that are not empty. -/
def henceLists (a b : RowidList S) : Option (RowidList S) :=
  (walkLoop a.rowidNum b.rowidNum (henceStep b) (a.rowidNum + b.rowidNum + 1)
    ⟨0, 0, 0, a.nodes⟩).map fun st =>
      if st.k = 0 then ⟨0, [], 0⟩ else ⟨st.k, st.nodes, st.k / 256⟩

/-- `rowid_fulltext_hence`; a list may be `NULL`. -/
def rowidFulltextHence (a b : Option (RowidList S)) : Option (Option (RowidList S)) :=
  match a, b with
  | some a, some b =>
    if a.rowidNum = 0 ∨ b.rowidNum = 0 then some (some a) else (henceLists a b).map some
  | a, _ => some a

/-- The loop of `rowid_list_setscore`. -/
def setscoreLoop (score : S) : Nat → List (RowidNode S) → Option (List (RowidNode S))
  | 0, nodes => some nodes
  | n + 1, nodes => do
    let nodes ← setscoreLoop score n nodes
    let p ← nodes[n / 256]?
    some (nodes.modify (n / 256) (·.put n (p.rowidArray (slotOf n)) (some fun _ => score)))

/-- `rowid_list_setscore`; a list may be `NULL`. -/
def rowidListSetscore (score : S) : Option (RowidList S) → Option (Option (RowidList S))
  | none => some none
  | some l =>
    (setscoreLoop score l.rowidNum l.nodes).map fun nodes => some { l with nodes := nodes }

end Functions

/-! ## §2. Writing over a place. -/

section Place

variable {S : Type} {nodes : List (RowidNode S)} {p : Nat} {x : UInt32}

theorem entryAt_of_rowAt (hrow : rowAt nodes p = some x) (num tail : Nat) :
    ∃ s, RowidList.entryAt ⟨num, nodes, tail⟩ p = some (x, s) := by
  unfold rowAt at hrow
  obtain ⟨r, hr, rfl⟩ := Option.map_eq_some_iff.mp hrow
  refine ⟨r.scoreArray.map fun a => a (slotOf p), ?_⟩
  simp only [RowidList.entryAt, hr, Option.map_some]

theorem entryAt_scored (hrow : rowAt nodes p = some x) (h : ScoredAt nodes p) (num tail : Nat) :
    ∃ s, RowidList.entryAt ⟨num, nodes, tail⟩ p = some (x, some s) := by
  obtain ⟨r, hr, hs⟩ := h
  obtain ⟨scores, hscores⟩ := Option.isSome_iff_exists.mp hs
  unfold rowAt at hrow
  rw [hr, Option.map_some] at hrow
  cases hrow
  refine ⟨scores (slotOf p), ?_⟩
  simp only [RowidList.entryAt, hr, hscores, Option.map_some]

theorem lt_length_of_rowAt (hrow : rowAt nodes p = some x) : p / 256 < nodes.length := by
  unfold rowAt at hrow
  obtain ⟨r, hr, -⟩ := Option.map_eq_some_iff.mp hrow
  exact (List.getElem?_eq_some_iff.mp hr).1

end Place

/-! ## §3. `rowid_intersection`. -/

section Intersection

variable {S : Type} [Zero S] [Add S] {a b : RowidList S} {xs ys : List UInt32}

/-- The rowids of both lists so far. -/
structure IntersectionInv (xs ys : List UInt32) (st : UnionState S) : Prop where
  crossed : Crossed xs ys st.i st.j
  written : Written st ((xs.take st.i).filter (· ∈ ys))

variable (hx : xs.Pairwise (· > ·)) (hy : ys.Pairwise (· > ·))

include hx hy

/-- One round of `rowid_intersection`. -/
theorem intersectionStep_spec (ha : Holds a xs) (hb : Holds b ys) (st : UnionState S)
    (hinv : IntersectionInv xs ys st) (hi : st.i < xs.length) (hj : st.j < ys.length) :
    ∃ st', intersectionStep a b st = some st' ∧ IntersectionInv xs ys st' ∧ st.Advanced st' := by
  obtain ⟨sx, hxe, -⟩ := ha.entryAt hi
  obtain ⟨sy, hye, -⟩ := hb.entryAt hj
  have hfilter := filter_take_succ (fun x => decide (x ∈ ys)) hi
  simp only [intersectionStep, hxe, hye]
  rcases hinv.crossed.cases hx hy hi hj with ⟨hgt, hnot, hc⟩ | ⟨hlt, hc⟩ | ⟨heq, hmem, hc⟩
  · rw [if_pos hgt]
    refine ⟨_, rfl, ⟨hc, ?_⟩, .inl ⟨rfl, rfl⟩⟩
    rw [hfilter]
    simpa [hnot] using hinv.written.moved (st.i + 1) st.j
  · rw [if_neg hlt.not_gt, if_pos hlt]
    exact ⟨_, rfl, ⟨hc, hinv.written.moved st.i (st.j + 1)⟩, .inr (.inl ⟨rfl, rfl⟩)⟩
  · rw [if_neg heq.not_gt, if_neg heq.not_lt]
    refine ⟨_, rfl, ⟨hc, ?_⟩, .inr (.inr ⟨rfl, rfl⟩)⟩
    rw [hfilter]
    simpa [hmem] using
      (hinv.written.write xs[st.i] (addScores sx sy)).moved (st.i + 1) (st.j + 1)

/-- `rowid_intersection` keeps the common rowids. -/
theorem intersectionLists_holds (ha : Holds a xs) (hb : Holds b ys) :
    ∃ l, intersectionLists a b = some l ∧ Holds l (xs.filter (· ∈ ys)) ∧
      (l.rowidNum = 0 ∧ l.nodes = [] ∧ l.tail = 0 ∨ l.rowidNum ≠ 0 ∧ Trailing l) := by
  obtain ⟨st, hloop, hinv, -, -, hend⟩ := walkLoop_spec (IntersectionInv xs ys)
    ⟨crossed_zero xs ys, written_nil 0 0⟩ (intersectionStep_spec hx hy ha hb)
  have hall : (xs.take st.i).filter (· ∈ ys) = xs.filter (· ∈ ys) :=
    filter_take_eq fun x hmem => decide_eq_false fun hxy =>
      lt_irrefl x (hinv.crossed.rest_lt hend hmem hxy)
  have hwritten := hinv.written
  rw [hall] at hwritten
  unfold intersectionLists
  rw [ha.num, hb.num, hloop, Option.map_some]
  refine ⟨_, rfl, ?_⟩
  split
  · next hk =>
      rw [hwritten.k_eq, length_eq_zero_iff] at hk
      rw [hk]
      exact ⟨holds_init, .inl ⟨rfl, rfl, rfl⟩⟩
  · next hk => exact ⟨hwritten.trailing.1, .inr ⟨hk, hwritten.trailing.2⟩⟩

/-- **`rowid_intersection`** keeps the rowids that are in the second list. -/
theorem rowidIntersection_holds {a b : Option (RowidList S)} (ha : ResultHolds a xs)
    (hb : ResultHolds b ys) :
    ∃ r, rowidIntersection a b = some r ∧ ResultHolds r (xs.filter (· ∈ ys)) := by
  cases a with
  | none =>
    obtain rfl : xs = [] := ha
    exact ⟨none, rfl, rfl⟩
  | some a =>
    have ha' : Holds a xs := ha
    unfold rowidIntersection
    by_cases ha0 : a.rowidNum = 0
    · -- an empty first list is returned
      obtain rfl := ha'.rowidNum_eq_zero.mp ha0
      cases b with
      | none | some b => exact ⟨some a, by simp only [if_pos ha0], ha⟩
    · cases b with
      | none =>
        obtain rfl : ys = [] := hb
        exact ⟨none, by simp only [if_neg ha0], by simp [ResultHolds]⟩
      | some b =>
        have hb' : Holds b ys := hb
        by_cases hb0 : b.rowidNum = 0
        · obtain rfl := hb'.rowidNum_eq_zero.mp hb0
          exact ⟨some b, by simp only [if_neg ha0, if_pos hb0], by simpa [ResultHolds] using hb'⟩
        · obtain ⟨l, hl, hholds, -⟩ := intersectionLists_holds hx hy ha' hb'
          exact ⟨some l, by simp only [if_neg ha0, if_neg hb0, hl, Option.map_some], hholds⟩

end Intersection

/-! ## §4. Working in place. -/

section InPlace

variable {S : Type} [Zero S] [Add S] {xs ys out : List UInt32} {st : UnionState S}

/-- The first places of the list hold `out`, and those from `i` on what they held
at first. -/
structure InPlace (xs out : List UInt32) (st : UnionState S) : Prop where
  k_eq : st.k = out.length
  k_le : st.k ≤ st.i
  done : ∀ p < out.length, rowAt st.nodes p = out[p]?
  todo : ∀ p, st.i ≤ p → p < xs.length → rowAt st.nodes p = xs[p]?

omit [Zero S] [Add S] in
theorem inPlace_start {a : RowidList S} (ha : Holds a xs) : InPlace xs [] ⟨0, 0, 0, a.nodes⟩ :=
  ⟨rfl, le_rfl, (fun _ hp => nomatch hp), fun p _ hp => ha.at_eq p hp⟩

omit [Zero S] [Add S] in
theorem InPlace.row (h : InPlace xs out st) (hi : st.i < xs.length) :
    rowAt st.nodes st.i = some xs[st.i] := by
  rw [h.todo st.i le_rfl hi, getElem?_eq_getElem hi]

omit [Zero S] [Add S] in
theorem InPlace.skip (h : InPlace xs out st) (i j : Nat) (hi : st.i ≤ i) :
    InPlace xs out { st with i := i, j := j } :=
  ⟨h.k_eq, h.k_le.trans hi, h.done, fun p hp hlen => h.todo p (hi.trans hp) hlen⟩

omit [Add S] in
theorem InPlace.keep (h : InPlace xs out st) (hi : st.i < xs.length) (score : Option (S → S)) :
    st.overwrite xs[st.i] score =
        some { st with
          k := st.k + 1
          nodes := st.nodes.modify (st.k / 256) (·.put st.k xs[st.i] score) } ∧
      ∀ j, InPlace xs (out ++ [xs[st.i]])
        ⟨st.i + 1, j, st.k + 1, st.nodes.modify (st.k / 256) (·.put st.k xs[st.i] score)⟩ := by
  have hk := h.k_eq
  have hle := h.k_le
  have hnode : st.k / 256 < st.nodes.length := by
    have := lt_length_of_rowAt (h.row hi)
    omega
  refine ⟨if_pos hnode, fun j => ⟨by simp [hk], Nat.succ_le_succ hle,
    rowAt_append (fun _ => rfl) hk hnode h.done, fun p hp hlen => ?_⟩⟩
  -- the places to come are behind the one written to
  have hp' : st.i + 1 ≤ p := hp
  rw [rowAt_modify_of_ne (fun _ => rfl) (by omega)]
  exact h.todo p (by omega) hlen

end InPlace

/-! ## §5. `rowid_minus`. -/

section Minus

variable {S : Type} [Zero S] [Add S] {a b : RowidList S} {xs ys : List UInt32}

/-- The rowids so far that are not in the second list. -/
structure MinusInv (xs ys : List UInt32) (st : UnionState S) : Prop where
  crossed : Crossed xs ys st.i st.j
  kept : InPlace xs ((xs.take st.i).filter (· ∉ ys)) st

omit [Add S] in
/-- The rest of the first list is copied. -/
theorem minusRest_spec :
    ∀ (fuel : Nat) (st : UnionState S) (out : List UInt32), InPlace xs out st →
      st.i ≤ xs.length → xs.length - st.i < fuel →
      ∃ st', minusRest xs.length fuel st = some st' ∧ InPlace xs (out ++ xs.drop st.i) st' := by
  intro fuel
  induction fuel with
  | zero => intro st out _ _ hfuel; omega
  | succ fuel ih =>
    intro st out h hi hfuel
    unfold minusRest
    by_cases hmore : st.i < xs.length
    · obtain ⟨sx, hxe⟩ := entryAt_of_rowAt (h.row hmore) 0 0
      obtain ⟨hput, hkeep⟩ := h.keep hmore none
      simp only [UnionState.entryAt, if_pos hmore, hxe, hput, Option.bind_some]
      obtain ⟨st', hrest, h'⟩ := ih _ _ (hkeep st.j) hmore
        (show xs.length - (st.i + 1) < fuel by omega)
      refine ⟨st', hrest, ?_⟩
      rw [drop_eq_getElem_cons hmore]
      rwa [append_assoc, singleton_append] at h'
    · rw [if_neg hmore, drop_of_length_le (by omega), append_nil]
      exact ⟨st, rfl, h⟩

variable (hx : xs.Pairwise (· > ·)) (hy : ys.Pairwise (· > ·))

include hx hy

omit [Add S] in
/-- One round of `rowid_minus`. -/
theorem minusStep_spec (hb : Holds b ys)
    (st : UnionState S) (hinv : MinusInv xs ys st) (hi : st.i < xs.length)
    (hj : st.j < ys.length) :
    ∃ st', minusStep b st = some st' ∧ MinusInv xs ys st' ∧ st.Advanced st' := by
  obtain ⟨sx, hxe⟩ := entryAt_of_rowAt (hinv.kept.row hi) 0 0
  obtain ⟨sy, hye, -⟩ := hb.entryAt hj
  have hfilter := filter_take_succ (fun x => decide (x ∉ ys)) hi
  simp only [minusStep, UnionState.entryAt, hxe, hye]
  rcases hinv.crossed.cases hx hy hi hj with ⟨hgt, hnot, hc⟩ | ⟨hlt, hc⟩ | ⟨heq, hmem, hc⟩
  · obtain ⟨hput, hkeep⟩ := hinv.kept.keep hi none
    rw [if_pos hgt, hput, Option.map_some]
    refine ⟨_, rfl, ⟨hc, ?_⟩, .inl ⟨rfl, rfl⟩⟩
    rw [hfilter]
    simpa [hnot] using hkeep st.j
  · rw [if_neg hlt.not_gt, if_pos hlt]
    exact ⟨_, rfl, ⟨hc, hinv.kept.skip st.i (st.j + 1) le_rfl⟩, .inr (.inl ⟨rfl, rfl⟩)⟩
  · rw [if_neg heq.not_gt, if_neg heq.not_lt]
    refine ⟨_, rfl, ⟨hc, ?_⟩, .inr (.inr ⟨rfl, rfl⟩)⟩
    rw [hfilter]
    simpa [hmem] using hinv.kept.skip (st.i + 1) (st.j + 1) (Nat.le_succ _)

omit [Add S] in
/-- `rowid_minus` keeps the others. -/
theorem minusLists_holds (ha : Holds a xs) (hb : Holds b ys) :
    ∃ l, minusLists a b = some l ∧ Holds l (xs.filter (· ∉ ys)) ∧ WellShaped l := by
  obtain ⟨st, hloop, hinv, hi, -, hend⟩ := walkLoop_spec (MinusInv xs ys)
    ⟨crossed_zero xs ys, inPlace_start ha⟩ (minusStep_spec hx hy hb)
  obtain ⟨st', hrest, hkept⟩ := minusRest_spec (xs.length + 1) st _ hinv.kept hi (by omega)
  have hall : (xs.take st.i).filter (· ∉ ys) ++ xs.drop st.i = xs.filter (· ∉ ys) := by
    have hdrop : (xs.drop st.i).filter (· ∉ ys) = xs.drop st.i :=
      filter_eq_self.mpr fun x hmem => decide_eq_true fun hxy =>
        lt_irrefl x (hinv.crossed.rest_lt hend hmem hxy)
    conv_rhs => rw [← take_append_drop st.i xs]
    rw [filter_append, hdrop]
  rw [hall] at hkept
  unfold minusLists
  rw [ha.num, hb.num, hloop, Option.bind_some, hrest, Option.map_some]
  refine ⟨_, rfl, ?_⟩
  split
  · next hk =>
      rw [hkept.k_eq, length_eq_zero_iff] at hk
      rw [hk]
      exact ⟨holds_init, wellShaped_init⟩
  · -- the nodes behind the last rowid are cut off
    next hne =>
    have hk := hkept.k_eq
    refine ⟨⟨hkept.k_eq, fun p hp => ?_⟩, ?_⟩
    · rw [← hkept.done p hp]
      simp only [RowidList.rowidAt, rowAt]
      rw [getElem?_take_of_lt (by omega)]
    · have hlast := hkept.done (st'.k - 1) (by omega)
      rw [getElem?_eq_getElem (by omega)] at hlast
      have hnode := lt_length_of_rowAt hlast
      refine ⟨?_, ?_⟩
      · rw [length_take]
        show min _ _ = (st'.k + 255) / 256
        omega
      · show (st'.k - 1) / 256 = (st'.nodes.take ((st'.k - 1) / 256 + 1)).length - 1
        rw [length_take]
        omega

omit [Add S] in
/-- **`rowid_minus`** keeps the rowids that are not in the second list. -/
theorem rowidMinus_holds {a b : Option (RowidList S)} (ha : ResultHolds a xs)
    (hb : ResultHolds b ys) :
    ∃ r, rowidMinus a b = some r ∧ ResultHolds r (xs.filter (· ∉ ys)) := by
  cases a with
  | none =>
    obtain rfl : xs = [] := ha
    exact ⟨none, rfl, rfl⟩
  | some a =>
    have ha' : Holds a xs := ha
    cases b with
    | none =>
      obtain rfl : ys = [] := hb
      exact ⟨some a, rfl, by simpa using ha⟩
    | some b =>
      have hb' : Holds b ys := hb
      unfold rowidMinus
      by_cases h0 : a.rowidNum = 0 ∨ b.rowidNum = 0
      · have hsame : xs.filter (· ∉ ys) = xs := by
          rcases h0 with ha0 | hb0
          · rw [ha'.rowidNum_eq_zero.mp ha0]
            rfl
          · rw [hb'.rowidNum_eq_zero.mp hb0]
            simp
        rw [hsame]
        exact ⟨some a, by simp only [if_pos h0], ha⟩
      · obtain ⟨l, hl, hholds, -⟩ := minusLists_holds hx hy ha' hb'
        exact ⟨some l, by simp only [if_neg h0, hl, Option.map_some], hholds⟩

end Minus

/-! ## §6. Lists with scores. -/

section Scores

variable {S : Type} [Zero S] [Add S] {a b : RowidList S} {xs ys : List UInt32}

def ResultScored (r : Option (RowidList S)) : Prop := ∀ l, r = some l → Scored l

/-- The list has the rowids, each with its score. -/
structure HoldsScores (l : RowidList S) (xs : List UInt32) (score : UInt32 → S) : Prop where
  num : l.rowidNum = xs.length
  at_eq : ∀ (p : Nat) (hp : p < xs.length), l.entryAt p = some (xs[p], some (score xs[p]))

def ResultScores (r : Option (RowidList S)) (xs : List UInt32) (score : UInt32 → S) : Prop :=
  match r with
  | none => xs = []
  | some l => HoldsScores l xs score

omit [Add S] in
theorem exists_scores (hx : xs.Pairwise (· > ·)) (ha : Holds a xs) (has : Scored a) :
    ∃ score, HoldsScores a xs score := by
  refine ⟨fun x => ((a.entryAt (xs.idxOf x)).bind (·.2)).getD 0, ha.num, fun p hp => ?_⟩
  obtain ⟨s, hs⟩ := entryAt_scored ((ha.at_eq p hp).trans (getElem?_eq_getElem hp))
    (has p (ha.num ▸ hp)) a.rowidNum a.tail
  have hnodup : xs.Nodup := hx.imp fun h => ne_of_gt h
  have hplace : xs.idxOf xs[p] = p := hnodup.idxOf_getElem p hp
  rw [hplace, show a.entryAt p = some (xs[p], some s) from hs]
  rfl

omit [Zero S] [Add S] in
theorem HoldsScores.holds {score : UInt32 → S} (h : HoldsScores a xs score) :
    Holds a xs ∧ Scored a := by
  refine ⟨⟨h.num, fun p hp => ?_⟩, fun p hp => ?_⟩
  · have hentry := h.at_eq p hp
    rw [RowidList.entryAt] at hentry
    obtain ⟨r, hr, heq⟩ := Option.map_eq_some_iff.mp hentry
    rw [RowidList.rowidAt, hr, getElem?_eq_getElem hp]
    exact congrArg (fun e => some e.1) heq
  · have hentry := h.at_eq p (h.num ▸ hp)
    rw [RowidList.entryAt] at hentry
    obtain ⟨r, hr, heq⟩ := Option.map_eq_some_iff.mp hentry
    refine ⟨r, hr, ?_⟩
    rw [← Option.isSome_map, (Prod.mk.inj heq).2]
    rfl

omit [Add S] in
theorem entryAt_put {nodes : List (RowidNode S)} {p k : Nat} {y : UInt32} {t : S}
    (h : RowidList.entryAt ⟨0, nodes, 0⟩ p = some (y, some t)) (x : UInt32) (s : S) :
    RowidList.entryAt ⟨0, nodes.modify (k / 256) (·.put k x (some fun _ => s)), 0⟩ p =
      some (if p = k then (x, some s) else (y, some t)) := by
  rw [RowidList.entryAt] at h ⊢
  obtain ⟨r, hr, heq⟩ := Option.map_eq_some_iff.mp h
  obtain ⟨scores, hscores⟩ : ∃ scores, r.scoreArray = some scores :=
    Option.map_eq_some_iff.mp (Prod.mk.inj heq).2 |>.imp fun _ h => h.1
  rw [getElem?_put, hr]
  simp only [hscores, Option.map_some, Prod.mk.injEq, Option.some.injEq] at heq ⊢
  by_cases hpk : p = k
  · subst hpk
    simp [RowidNode.put]
  · by_cases hnode : k / 256 = p / 256
    · have hslot := slotOf_ne hnode.symm hpk
      simp [RowidNode.put, hnode, hpk, hscores, Function.update_of_ne hslot, heq]
    · simp [hnode, hpk, hscores, heq]

/-- The score of a rowid behind `rowid_fulltext_hence`. -/
def henceScore (ys : List UInt32) (sa sb : UInt32 → S) (x : UInt32) : S :=
  if x ∈ ys then sa x + sb x else sa x

variable {sa sb : UInt32 → S}

/-- The loop writes to the place it reads from, so the list keeps its rowids. -/
structure HenceInv (xs ys : List UInt32) (sa sb : UInt32 → S) (st : UnionState S) : Prop where
  crossed : Crossed xs ys st.i st.j
  reached : ∀ x ∈ xs.take st.i, ∃ y ∈ ys, y ≤ x
  k_eq : st.k = st.i
  entries : ∀ (p : Nat) (hp : p < xs.length), st.entryAt p =
    some (xs[p], some (if p < st.i then henceScore ys sa sb xs[p] else sa xs[p]))

variable {st : UnionState S}

/-- A rowid is written back with its score. -/
theorem HenceInv.keep (h : HenceInv xs ys sa sb st) (hi : st.i < xs.length) {j : Nat}
    (hcrossed : Crossed xs ys (st.i + 1) j) (hreach : ∃ y ∈ ys, y ≤ xs[st.i]) {s : S}
    (hs : s = henceScore ys sa sb xs[st.i]) :
    ∃ st', st.overwrite xs[st.i] (some fun _ => s) = some st' ∧
      HenceInv xs ys sa sb { st' with i := st.i + 1, j := j } := by
  have hnode : st.k / 256 < st.nodes.length := by
    obtain ⟨r, hr, -⟩ := Option.map_eq_some_iff.mp (h.entries st.i hi)
    rw [h.k_eq]
    exact (List.getElem?_eq_some_iff.mp hr).1
  refine ⟨_, if_pos hnode, hcrossed, fun x hmem => ?_, congrArg (· + 1) h.k_eq, fun p hp => ?_⟩
  · rcases (mem_take_succ hi).mp hmem with hmem | rfl
    · exact h.reached x hmem
    · exact hreach
  · have hentry := entryAt_put (k := st.k) (h.entries p hp) xs[st.i] s
    rw [h.k_eq] at hentry
    rw [UnionState.entryAt, h.k_eq, hentry]
    by_cases hpi : p = st.i
    · subst hpi
      simp [hs]
    · have hlt : p < st.i + 1 ↔ p < st.i := by omega
      simp [hpi, hlt]

/-- One round of `rowid_fulltext_hence`. -/
theorem henceStep_spec (hx : xs.Pairwise (· > ·)) (hy : ys.Pairwise (· > ·))
    (hb : HoldsScores b ys sb) (st : UnionState S) (hinv : HenceInv xs ys sa sb st)
    (hi : st.i < xs.length) (hj : st.j < ys.length) :
    ∃ st', henceStep b st = some st' ∧ HenceInv xs ys sa sb st' ∧ st.Advanced st' := by
  have hxe : st.entryAt st.i = some (xs[st.i], some (sa xs[st.i])) := by
    simpa using hinv.entries st.i hi
  simp only [henceStep, hinv.k_eq, hxe, hb.at_eq st.j hj, Option.bind_some]
  rcases hinv.crossed.cases hx hy hi hj with ⟨hgt, hnot, hc⟩ | ⟨hlt, hc⟩ | ⟨heq, hmem, hc⟩
  · obtain ⟨st', hput, hkeep⟩ := hinv.keep hi hc
      ⟨ys[st.j], getElem_mem hj, le_of_lt hgt⟩ (if_neg hnot).symm
    have hj' : st'.j = st.j := by
      rw [UnionState.overwrite] at hput
      split_ifs at hput
      cases hput
      rfl
    rw [if_pos hgt, hput, Option.map_some]
    exact ⟨_, rfl, by rwa [← hj'] at hkeep, .inl ⟨rfl, hj'⟩⟩
  · rw [if_neg hlt.not_gt, if_pos hlt]
    exact ⟨_, rfl, ⟨hc, hinv.reached, rfl, hinv.entries⟩, .inr (.inl ⟨rfl, rfl⟩)⟩
  · obtain ⟨st', hput, hkeep⟩ := hinv.keep hi hc ⟨_, hmem, le_rfl⟩ (if_pos hmem).symm
    rw [if_neg heq.not_gt, if_neg heq.not_lt, ← heq, hput, Option.map_some]
    exact ⟨_, rfl, hkeep, .inr (.inr ⟨rfl, rfl⟩)⟩

/-- The loop keeps what the second list reaches. -/
theorem henceLists_scores (hx : xs.Pairwise (· > ·)) (hy : ys.Pairwise (· > ·))
    (ha : HoldsScores a xs sa) (hb : HoldsScores b ys sb) :
    ∃ l, henceLists a b = some l ∧
      HoldsScores l (xs.filter fun x => ys.any (· ≤ x)) (henceScore ys sa sb) := by
  obtain ⟨st, hloop, hinv, hi, -, hend⟩ := walkLoop_spec (HenceInv xs ys sa sb)
    ⟨crossed_zero xs ys, fun x hmem => absurd hmem (by simp), rfl, ha.at_eq⟩
    (henceStep_spec hx hy hb)
  have hall : (xs.filter fun x => ys.any (· ≤ x)) = xs.take st.i := by
    rw [← filter_take_eq (i := st.i), filter_eq_self]
    · intro x hmem
      obtain ⟨y, hmem', hle⟩ := hinv.reached x hmem
      exact any_eq_true.mpr ⟨y, hmem', decide_eq_true hle⟩
    · intro x hmem
      rw [any_eq_false]
      intro y hy'
      rw [decide_eq_true_iff, not_le]
      exact hinv.crossed.rest_lt hend hmem hy'
  have hlen : (xs.take st.i).length = st.k := by
    rw [length_take, hinv.k_eq]
    omega
  unfold henceLists
  rw [ha.num, hb.num, hloop, Option.map_some, hall]
  refine ⟨_, rfl, ?_⟩
  split
  · next hk => exact ⟨(hlen.trans hk).symm, fun p hp => absurd hp (by omega)⟩
  · refine ⟨hlen.symm, fun p hp => ?_⟩
    have hentry := hinv.entries p (by rw [length_take] at hp; omega)
    rw [if_pos (by rw [length_take] at hp; omega)] at hentry
    rw [getElem_take]
    exact hentry

/-- **When `rowid_fulltext_hence` keeps the rowids**, and adds the scores of the second
list: if that list is empty, or goes down to the rowids of the first one.  The loop ends
with the second list, and what is left of the first one is cut off. -/
theorem rowidFulltextHence_scores {a b : Option (RowidList S)} (hx : xs.Pairwise (· > ·))
    (hy : ys.Pairwise (· > ·)) (ha : ResultScores a xs sa) (hb : ResultScores b ys sb) :
    ∃ r, rowidFulltextHence a b = some r ∧
      (ResultScores r xs (henceScore ys sa sb) ↔ ys = [] ∨ ∀ x ∈ xs, ∃ y ∈ ys, y ≤ x) := by
  have hempty : ys = [] → henceScore ys sa sb = sa := by
    rintro rfl
    funext x
    simp [henceScore]
  have hnil : ∀ {l : RowidList S} {zs : List UInt32} {s : UInt32 → S}, HoldsScores l zs s →
      (l.rowidNum = 0 ↔ zs = []) := by
    intro l zs s h
    rw [h.num, length_eq_zero_iff]
  cases a with
  | none =>
    obtain rfl : xs = [] := ha
    exact ⟨none, rfl, by simp [ResultScores]⟩
  | some a =>
    cases b with
    | none =>
      have hys : ys = [] := hb
      exact ⟨some a, rfl, by rw [hempty hys]; exact iff_of_true ha (.inl hys)⟩
    | some b =>
      unfold rowidFulltextHence
      by_cases h0 : a.rowidNum = 0 ∨ b.rowidNum = 0
      · refine ⟨some a, by simp only [if_pos h0], ?_⟩
        rcases h0 with h0 | h0
        · obtain rfl := (hnil ha).mp h0
          exact iff_of_true ⟨h0, fun _ hp => nomatch hp⟩ (.inr fun _ hmem => nomatch hmem)
        · have hys := (hnil hb).mp h0
          rw [hempty hys]
          exact iff_of_true ha (.inl hys)
      · rw [not_or] at h0
        have hys : ys ≠ [] := mt (hnil hb).mpr h0.2
        obtain ⟨l, hl, hscores⟩ := henceLists_scores hx hy ha hb
        refine ⟨some l, by simp only [if_neg (not_or.mpr h0), hl, Option.map_some], ?_⟩
        have hclear : (xs.filter fun x => ys.any (· ≤ x)) = xs ↔ ∀ x ∈ xs, ∃ y ∈ ys, y ≤ x := by
          simp [filter_eq_self]
        rw [or_iff_right hys, ← hclear]
        constructor
        · intro h
          exact filter_sublist.eq_of_length (hscores.num.symm.trans h.num)
        · intro h
          rwa [h] at hscores

/-- A list of up to 256 rowids with their scores. -/
def scoredList (xs : List UInt32) (score : UInt32 → Nat) : RowidList Nat :=
  ⟨xs.length, [⟨fun i => xs.getD i.val 0, some fun i => score (xs.getD i.val 0)⟩], 0⟩

/-- Of the rowids 9, 7, 5 the second list has 7, and it goes down to 4. -/
theorem rowidFulltextHence_scores_three :
    (∃ r, rowidFulltextHence (some (scoredList [9, 7, 5] fun _ => 1))
        (some (scoredList [8, 7, 4] fun _ => 10)) = some r ∧
      ResultScores r [9, 7, 5] (henceScore [8, 7, 4] (fun _ => 1) fun _ => 10)) ∧
    [9, 7, 5].map (henceScore [8, 7, 4] (fun _ => 1) fun _ => 10) = [1, 11, 1] := by
  have hthree : ∀ x y z score,
      ResultScores (some (scoredList [x, y, z] score)) [x, y, z] score := by
    refine fun x y z score => ⟨rfl, fun p hp => ?_⟩
    match p, hp with
    | 0, _ => rfl
    | 1, _ => rfl
    | 2, _ => rfl
  obtain ⟨r, hr, hiff⟩ := rowidFulltextHence_scores (by decide) (by decide)
    (hthree 9 7 5 fun _ => 1) (hthree 8 7 4 fun _ => 10)
  exact ⟨⟨r, hr, hiff.mpr (.inr (by simp))⟩, rfl⟩

def oneRowid (rowid : UInt32) (score : Nat) : RowidList Nat :=
  ⟨1, [⟨fun _ => rowid, some fun _ => score⟩], 0⟩

theorem hence_drops_rowids :
    rowidFulltextHence (some (oneRowid 5 2)) (some (oneRowid 9 3)) = some (some ⟨0, [], 0⟩) ∧
      (oneRowid 5 2).rowidAt 0 = some 5 :=
  ⟨rfl, rfl⟩

/-- **`rowid_fulltext_hence`** keeps the rowids down to the last one of the second
list, unless a list is empty. -/
theorem rowidFulltextHence_holds {a b : Option (RowidList S)} (hx : xs.Pairwise (· > ·))
    (hy : ys.Pairwise (· > ·)) (ha : ResultHolds a xs) (has : ResultScored a)
    (hb : ResultHolds b ys) (hbs : ResultScored b) :
    ∃ r zs, rowidFulltextHence a b = some r ∧ ResultHolds r zs ∧ zs.Sublist xs ∧
      ResultScored r := by
  cases a with
  | none => exact ⟨none, xs, rfl, ha, .refl _, has⟩
  | some a =>
    cases b with
    | none => exact ⟨some a, xs, rfl, ha, .refl _, has⟩
    | some b =>
      unfold rowidFulltextHence
      by_cases h0 : a.rowidNum = 0 ∨ b.rowidNum = 0
      · exact ⟨some a, xs, by simp only [if_pos h0], ha, .refl _, has⟩
      · obtain ⟨sa, hsa⟩ := exists_scores hx ha (has a rfl)
        obtain ⟨sb, hsb⟩ := exists_scores hy hb (hbs b rfl)
        obtain ⟨l, hl, hscores⟩ := henceLists_scores hx hy hsa hsb
        refine ⟨some l, _, by simp only [if_neg h0, hl, Option.map_some], hscores.holds.1,
          filter_sublist, ?_⟩
        intro l' hl'
        cases hl'
        exact hscores.holds.2

omit [Add S] in
/-- **`rowid_list_setscore`** keeps the rowids and gives each a score. -/
theorem setscoreLoop_spec (score : S) (nodes : List (RowidNode S)) (n : Nat)
    (hnodes : ∀ p < n, ∃ x, rowAt nodes p = some x) :
    ∃ nodes', setscoreLoop score n nodes = some nodes' ∧
      (∀ p, rowAt nodes' p = rowAt nodes p) ∧ ∀ p < n, ScoredAt nodes' p := by
  induction n with
  | zero => exact ⟨nodes, rfl, fun _ => rfl, fun _ hp => nomatch hp⟩
  | succ n ih =>
    obtain ⟨nodes', hloop, hsame, hscored⟩ := ih fun p hp => hnodes p (by omega)
    obtain ⟨x, hx⟩ := hnodes n (Nat.lt_succ_self n)
    have hrow := (hsame n).trans hx
    have hlen := lt_length_of_rowAt hrow
    have hxr : nodes'[n / 256].rowidArray (slotOf n) = x := by
      rw [rowAt, getElem?_eq_getElem hlen, Option.map_some] at hrow
      exact Option.some.inj hrow
    refine ⟨nodes'.modify (n / 256) (·.put n x (some fun _ => score)), ?_, fun p => ?_,
      fun p hp => ?_⟩
    · rw [setscoreLoop, hloop]
      simp only [Option.bind_eq_bind, Option.bind_some, getElem?_eq_getElem hlen, hxr]
    · by_cases hpn : p = n
      · subst hpn
        rw [rowAt_modify_self (fun _ => rfl) hlen, hx]
      · rw [rowAt_modify_of_ne (fun _ => rfl) hpn, hsame]
    · by_cases hpn : p = n
      · subst hpn
        exact scoredAt_put_self hlen x rfl
      · exact scoredAt_put (hscored p (by omega)) n x _

variable {r : Option (RowidList S)}

omit [Add S] in
theorem rowidListSetscore_holds (score : S) (h : ResultHolds r xs) :
    ∃ r', rowidListSetscore score r = some r' ∧ ResultHolds r' xs ∧ ResultScored r' := by
  cases r with
  | none => exact ⟨none, rfl, h, fun _ hl => nomatch hl⟩
  | some l =>
    have hl : Holds l xs := h
    have hrows : ∀ p < l.rowidNum, ∃ x, rowAt l.nodes p = some x := by
      intro p hp
      rw [hl.num] at hp
      exact ⟨xs[p], (hl.at_eq p hp).trans (getElem?_eq_getElem hp)⟩
    obtain ⟨nodes', hloop, hsame, hscored⟩ := setscoreLoop_spec score l.nodes l.rowidNum hrows
    refine ⟨some { l with nodes := nodes' }, by rw [rowidListSetscore, hloop]; rfl, ?_, ?_⟩
    · exact ⟨hl.num, fun i hi => (hsame i).trans (hl.at_eq i hi)⟩
    · intro l' hl'
      cases hl'
      exact hscored

/-- Unions of lists with scores have scores. -/
theorem rowidUnion_scored {a b : Option (RowidList S)} (ha : ResultHolds a xs)
    (has : ResultScored a) (hb : ResultHolds b ys) (hbs : ResultScored b)
    (hr : rowidUnion a b = some r) : ResultScored r := by
  cases a with
  | none =>
    cases hr
    exact hbs
  | some a =>
    cases b with
    | none =>
      cases hr
      intro l hl
      split at hl
      · cases hl
      · exact has l hl
    | some b =>
      unfold rowidUnion at hr
      simp only at hr
      split at hr
      · cases hr
        exact hbs
      · split at hr
        · cases hr
          exact has
        · obtain ⟨l, hl, rfl⟩ := Option.map_eq_some_iff.mp hr
          intro l' hl'
          cases hl'
          obtain ⟨l, heq, -, -, hscored⟩ := unionLists_holds ha hb
          cases hl.symm.trans heq
          exact hscored (has a rfl) (hbs b rfl)

end Scores

end Mile.DocDb
