/-
  Mile.DocDb.SetOperator
  ──────────────────────
  **SET OPERATIONS ON ROWID LISTS** (`storage/docdb/set_operator.c`).

  `rowid_union` walks two descending lists and writes the result behind the place `k`; a new node
  is linked whenever `k` comes to a multiple of 256.  The scores of a rowid in both lists are
  added.
-/
import Mile.DocDb.RowidList

namespace Mile.DocDb

open List

/-! ## §1. The function. -/

section Functions

variable {S : Type}

/-- Rowid and score at a place: `p` is the node the place falls into. -/
def RowidList.entryAt (l : RowidList S) (i : Nat) : Option (UInt32 × Option S) :=
  (l.nodes[i / 256]?).map fun p =>
    (p.rowidArray (slotOf i), p.scoreArray.map fun a => a (slotOf i))

variable [Zero S] [Add S]

/-- Rowid and score written to slot `k % 256`; the first score of a node
allocates its array. -/
def RowidNode.put (r : RowidNode S) (k : Nat) (rowid : UInt32) (score : Option (S → S)) :
    RowidNode S where
  rowidArray := Function.update r.rowidArray (slotOf k) rowid
  scoreArray :=
    match score with
    | none => r.scoreArray
    | some f =>
      let scores := r.scoreArray.getD fun _ => 0
      some (Function.update scores (slotOf k) (f (scores (slotOf k))))

/-- The result so far: `r` is the last node. -/
structure UnionState (S : Type) where
  i : Nat
  j : Nat
  k : Nat
  nodes : List (RowidNode S)

/-- One entry written at place `k`, and a new node if the last one is full. -/
def UnionState.write (st : UnionState S) (rowid : UInt32) (score : Option (S → S)) : UnionState S :=
  let nodes := st.nodes.modify (st.nodes.length - 1) (·.put st.k rowid score)
  { st with
    k := st.k + 1
    nodes := if (st.k + 1) % 256 = 0 then nodes ++ [RowidNode.zero] else nodes }

def addScores : Option S → Option S → Option (S → S)
  | none, none => none
  | some x, none => some (· + x)
  | none, some y => some (· + y)
  | some x, some y => some fun s => s + x + y

def unionStep (a b : RowidList S) (st : UnionState S) : Option (UnionState S) :=
  match a.entryAt st.i, b.entryAt st.j with
  | some x, some y =>
    if x.1 > y.1 then
      some { st.write x.1 (x.2.map fun s _ => s) with i := st.i + 1 }
    else if x.1 < y.1 then
      some { st.write y.1 (y.2.map fun s _ => s) with j := st.j + 1 }
    else
      some { st.write x.1 (addScores x.2 y.2) with i := st.i + 1, j := st.j + 1 }
  | _, _ => none

def unionLoop (a b : RowidList S) : Nat → UnionState S → Option (UnionState S)
  | 0, _ => none
  | fuel + 1, st =>
    if st.i < a.rowidNum ∧ st.j < b.rowidNum then (unionStep a b st).bind (unionLoop a b fuel)
    else some st

/-- A loop over two lists of `m` and `n` rowids, while both have more. -/
def walkLoop (m n : Nat) (step : UnionState S → Option (UnionState S)) :
    Nat → UnionState S → Option (UnionState S)
  | 0, _ => none
  | fuel + 1, st =>
    if st.i < m ∧ st.j < n then (step st).bind (walkLoop m n step fuel) else some st

/-- The second loop, over the rest of one list from place `j`. -/
def restLoop (b : RowidList S) : Nat → UnionState S → Option (UnionState S)
  | 0, _ => none
  | fuel + 1, st =>
    if st.j < b.rowidNum then
      match b.entryAt st.j with
      | some y => restLoop b fuel { st.write y.1 (y.2.map fun s _ => s) with j := st.j + 1 }
      | none => none
    else some st

/-- `rowid_union` of two lists that are not empty. -/
def unionLists (a b : RowidList S) : Option (RowidList S) :=
  (unionLoop a b (a.rowidNum + b.rowidNum + 1) ⟨0, 0, 0, [RowidNode.zero]⟩).bind fun st =>
    (if st.j = b.rowidNum then restLoop a (a.rowidNum + 1) { st with j := st.i }
      else restLoop b (b.rowidNum + 1) st).map fun st' =>
      ⟨st'.k, st'.nodes, st'.nodes.length - 1⟩

/-- `rowid_union`; a list may be `NULL`. -/
def rowidUnion (a b : Option (RowidList S)) : Option (Option (RowidList S)) :=
  match a, b with
  | none, b => some b
  | some a, none => some (if a.rowidNum = 0 then none else some a)
  | some a, some b =>
    if a.rowidNum = 0 then some (some b)
    else if b.rowidNum = 0 then some (some a)
    else (unionLists a b).map some

end Functions

/-! ## §2. Merging descending lists. -/

def mergeDesc : List UInt32 → List UInt32 → List UInt32
  | [], ys => ys
  | x :: xs, [] => x :: xs
  | x :: xs, y :: ys =>
    if x > y then x :: mergeDesc xs (y :: ys)
    else if x < y then y :: mergeDesc (x :: xs) ys
    else x :: mergeDesc xs ys

section Merge

variable {xs ys : List UInt32}

@[simp] theorem mergeDesc_nil_left (ys : List UInt32) : mergeDesc [] ys = ys := by
  unfold mergeDesc
  rfl

@[simp] theorem mergeDesc_nil_right (xs : List UInt32) : mergeDesc xs [] = xs := by
  cases xs <;> simp [mergeDesc]

theorem mem_mergeDesc (xs ys : List UInt32) (z : UInt32) :
    z ∈ mergeDesc xs ys ↔ z ∈ xs ∨ z ∈ ys := by
  induction xs, ys using mergeDesc.induct with
  | case1 ys => simp
  | case2 x xs => simp
  | case3 x xs y ys hgt ih =>
    simp only [mergeDesc, if_pos hgt, mem_cons, ih]
    tauto
  | case4 x xs y ys hgt hlt ih =>
    simp only [mergeDesc, if_neg hgt, if_pos hlt, mem_cons, ih]
    tauto
  | case5 x xs y ys hgt hlt ih =>
    have hxy : x = y := UInt32.le_antisymm (UInt32.not_lt.mp hgt) (UInt32.not_lt.mp hlt)
    subst hxy
    simp only [mergeDesc, if_neg hgt, mem_cons, ih]
    tauto

/-- Merging keeps the lists descending. -/
theorem mergeDesc_desc (hx : xs.Pairwise (· > ·)) (hy : ys.Pairwise (· > ·)) :
    (mergeDesc xs ys).Pairwise (· > ·) := by
  induction xs, ys using mergeDesc.induct with
  | case1 ys => simpa using hy
  | case2 x xs => simpa using hx
  | case3 x xs y ys hgt ih =>
    rw [pairwise_cons] at hx
    simp only [mergeDesc, if_pos hgt, pairwise_cons]
    refine ⟨fun z hz => ?_, ih hx.2 hy⟩
    rcases (mem_mergeDesc _ _ z).mp hz with hz | hz
    · exact hx.1 z hz
    · rcases mem_cons.mp hz with rfl | hz
      · exact hgt
      · exact UInt32.lt_trans ((pairwise_cons.mp hy).1 z hz) hgt
  | case4 x xs y ys hgt hlt ih =>
    rw [pairwise_cons] at hy
    simp only [mergeDesc, if_neg hgt, if_pos hlt, pairwise_cons]
    refine ⟨fun z hz => ?_, ih hx hy.2⟩
    rcases (mem_mergeDesc _ _ z).mp hz with hz | hz
    · rcases mem_cons.mp hz with rfl | hz
      · exact hlt
      · exact UInt32.lt_trans ((pairwise_cons.mp hx).1 z hz) hlt
    · exact hy.1 z hz
  | case5 x xs y ys hgt hlt ih =>
    have hxy : x = y := UInt32.le_antisymm (UInt32.not_lt.mp hgt) (UInt32.not_lt.mp hlt)
    subst hxy
    rw [pairwise_cons] at hx hy
    simp only [mergeDesc, if_neg hgt, pairwise_cons]
    refine ⟨fun z hz => ?_, ih hx.2 hy.2⟩
    rcases (mem_mergeDesc _ _ z).mp hz with hz | hz
    · exact hx.1 z hz
    · exact hy.1 z hz

end Merge

/-! ## §3. Loops over two lists. -/

section Loop

variable {S : Type} {m n : Nat} {step : UnionState S → Option (UnionState S)}

/-- One place is moved on, or both are. -/
def UnionState.Advanced (st st' : UnionState S) : Prop :=
  st'.i = st.i + 1 ∧ st'.j = st.j ∨ st'.i = st.i ∧ st'.j = st.j + 1 ∨
    st'.i = st.i + 1 ∧ st'.j = st.j + 1

/-- The invariant rule of the walks. -/
theorem walkLoop_inv {Inv : UnionState S → Prop} (hstep : ∀ st, Inv st → st.i < m → st.j < n →
      ∃ st', step st = some st' ∧ Inv st' ∧ st.Advanced st') :
    ∀ (fuel : Nat) (st : UnionState S), Inv st → st.i ≤ m → st.j ≤ n →
      m + n - (st.i + st.j) < fuel →
      ∃ st', walkLoop m n step fuel st = some st' ∧ Inv st' ∧ st'.i ≤ m ∧ st'.j ≤ n ∧
        (st'.i = m ∨ st'.j = n) := by
  intro fuel
  induction fuel with
  | zero => intro st _ _ _ hfuel; omega
  | succ fuel ih =>
    intro st hinv hi hj hfuel
    unfold walkLoop
    by_cases hmore : st.i < m ∧ st.j < n
    · obtain ⟨st₁, hst, hinv₁, hadv⟩ := hstep st hinv hmore.1 hmore.2
      unfold UnionState.Advanced at hadv
      rw [if_pos hmore, hst]
      exact ih st₁ hinv₁ (by omega) (by omega) (by omega)
    · rw [if_neg hmore]
      exact ⟨st, rfl, hinv, hi, hj, by omega⟩

/-- **A loop over two lists** comes to the end of one of them. -/
theorem walkLoop_spec (Inv : UnionState S → Prop) {nodes : List (RowidNode S)}
    (h₀ : Inv ⟨0, 0, 0, nodes⟩)
    (hstep : ∀ st, Inv st → st.i < m → st.j < n →
      ∃ st', step st = some st' ∧ Inv st' ∧ st.Advanced st') :
    ∃ st, walkLoop m n step (m + n + 1) ⟨0, 0, 0, nodes⟩ = some st ∧ Inv st ∧ st.i ≤ m ∧
      st.j ≤ n ∧ (st.i = m ∨ st.j = n) :=
  walkLoop_inv hstep _ _ h₀ (Nat.zero_le _) (Nat.zero_le _) (by simp)

end Loop

/-! ## §4. Scores. -/

section Scores

variable {S : Type} {nodes : List (RowidNode S)} {p k : Nat}

def ScoredAt (nodes : List (RowidNode S)) (p : Nat) : Prop :=
  ∃ r, nodes[p / 256]? = some r ∧ r.scoreArray.isSome

def Scored (l : RowidList S) : Prop := ∀ p < l.rowidNum, ScoredAt l.nodes p

def ScoredSoFar (st : UnionState S) : Prop := ∀ p < st.k, ScoredAt st.nodes p

theorem addScores_isSome [Add S] {sx : Option S} (h : sx.isSome) (sy : Option S) :
    (addScores sx sy).isSome := by
  cases sx <;> cases sy <;> first | rfl | cases h

variable [Zero S]

theorem getElem?_put (x : UInt32) (score : Option (S → S)) (n : Nat) :
    (nodes.modify (k / 256) (·.put k x score))[n]? =
      (nodes[n]?).map fun r => if k / 256 = n then r.put k x score else r := by
  rw [getElem?_modify]
  rfl

theorem scoredAt_put (h : ScoredAt nodes p) (k : Nat) (x : UInt32) (score : Option (S → S)) :
    ScoredAt (nodes.modify (k / 256) (·.put k x score)) p := by
  obtain ⟨r, hr, hs⟩ := h
  rw [ScoredAt, getElem?_put, hr]
  refine ⟨_, rfl, ?_⟩
  split
  · cases score with
    | none => exact hs
    | some f => rfl
  · exact hs

theorem scoredAt_put_self (hk : k / 256 < nodes.length) (x : UInt32) {score : Option (S → S)}
    (hs : score.isSome) : ScoredAt (nodes.modify (k / 256) (·.put k x score)) k := by
  obtain ⟨f, rfl⟩ := Option.isSome_iff_exists.mp hs
  rw [ScoredAt, getElem?_put, getElem?_eq_getElem hk]
  exact ⟨_, rfl, by simp [RowidNode.put]⟩

end Scores

/-! ## §5. `rowid_union` merges. -/

section Union

variable {S : Type} [Zero S] [Add S] {a b : RowidList S} {xs ys out : List UInt32}
  {st : UnionState S}

/-- The result so far holds `out`, and its last node has room. -/
structure Written (st : UnionState S) (out : List UInt32) : Prop where
  k_eq : st.k = out.length
  nodes_length : st.nodes.length = out.length / 256 + 1
  at_eq : ∀ i < out.length,
    (st.nodes[i / 256]?).map (fun r => r.rowidArray (slotOf i)) = out[i]?

omit [Zero S] [Add S] in
theorem written_nil (i j : Nat) : Written (S := S) ⟨i, j, 0, [RowidNode.zero]⟩ [] :=
  ⟨rfl, rfl, fun _ hi => nomatch hi⟩

omit [Zero S] [Add S] in
theorem Written.moved (h : Written st out) (i j : Nat) : Written { st with i := i, j := j } out :=
  ⟨h.k_eq, h.nodes_length, h.at_eq⟩

omit [Add S] in
/-- One more rowid is written. -/
theorem Written.write (h : Written st out) (x : UInt32) (score : Option (S → S)) :
    Written (st.write x score) (out ++ [x]) := by
  have hk := h.k_eq
  have hnodes := h.nodes_length
  have hlast : st.nodes.length - 1 = st.k / 256 := by omega
  -- the nodes before the last one has been checked for being full
  have hput := rowAt_append (f := fun r => r.put st.k x score) (fun _ => rfl) hk (by omega) h.at_eq
  rw [← hlast] at hput
  unfold UnionState.write
  refine ⟨by simp [hk], ?_, fun i hi => ?_⟩
  · simp only [length_append, length_singleton]
    split
    · rw [length_append, length_modify, length_singleton]
      omega
    · rw [length_modify]
      omega
  · rw [← hput i hi]
    rw [length_append, length_singleton] at hi
    simp only
    split
    · rw [getElem?_append_left (by rw [length_modify]; omega)]
      rfl
    · rfl

omit [Add S] in
theorem ScoredSoFar.write (h : ScoredSoFar st) (hw : Written st out) (x : UInt32)
    {score : Option (S → S)} (hs : score.isSome) (i j : Nat) :
    ScoredSoFar { st.write x score with i := i, j := j } := by
  have hk := hw.k_eq
  have hlen := hw.nodes_length
  have hlast : st.nodes.length - 1 = st.k / 256 := by omega
  intro p hp
  have hp' : p < st.k + 1 := hp
  have hput : ScoredAt (st.nodes.modify (st.k / 256) (·.put st.k x score)) p := by
    by_cases hpk : p = st.k
    · subst hpk
      exact scoredAt_put_self (by omega) x hs
    · exact scoredAt_put (h p (by omega)) st.k x score
  simp only [UnionState.write, hlast]
  split
  · -- a new node is linked behind the others
    obtain ⟨r, hr, hs⟩ := hput
    exact ⟨r, by rw [getElem?_append_left (List.getElem?_eq_some_iff.mp hr).1, hr], hs⟩
  · exact hput

omit [Zero S] [Add S] in
theorem Holds.entryAt (h : Holds a xs) {i : Nat} (hi : i < xs.length) :
    ∃ score, a.entryAt i = some (xs[i], score) ∧ (Scored a → score.isSome) := by
  have hat := h.at_eq i hi
  unfold RowidList.rowidAt at hat
  unfold RowidList.entryAt
  rw [getElem?_eq_getElem hi] at hat
  obtain ⟨p, hp, hrow⟩ := Option.map_eq_some_iff.mp hat
  refine ⟨_, by rw [hp, Option.map_some, hrow], fun hs => ?_⟩
  obtain ⟨r, hr, hsome⟩ := hs i (h.num ▸ hi)
  rw [Option.isSome_map, ← Option.some.inj (hr.symm.trans hp)]
  exact hsome

theorem unionLoop_eq (fuel : Nat) (st : UnionState S) :
    unionLoop a b fuel st = walkLoop a.rowidNum b.rowidNum (unionStep a b) fuel st := by
  induction fuel generalizing st with
  | zero => rfl
  | succ fuel ih => simp only [unionLoop, walkLoop, funext ih]

/-- What was written goes on with the merge of the rests, and has scores if both lists have. -/
structure UnionInv (a b : RowidList S) (xs ys : List UInt32) (st : UnionState S) : Prop where
  written : ∃ out, Written st out ∧
    out ++ mergeDesc (xs.drop st.i) (ys.drop st.j) = mergeDesc xs ys
  scored : Scored a → Scored b → ScoredSoFar st

omit [Add S] in
theorem UnionInv.write (hw : Written st out) (hs : Scored a → Scored b → ScoredSoFar st)
    {x : UInt32} {score : Option (S → S)} (hscore : Scored a → Scored b → score.isSome) {i j : Nat}
    (heq : out ++ x :: mergeDesc (xs.drop i) (ys.drop j) = mergeDesc xs ys) :
    UnionInv a b xs ys { st.write x score with i := i, j := j } :=
  ⟨⟨out ++ [x], (hw.write x score).moved i j, by rwa [append_assoc, singleton_append]⟩,
    fun ha hb => (hs ha hb).write hw x (hscore ha hb) i j⟩

/-- One round of `rowid_union`. -/
theorem unionStep_spec (ha : Holds a xs) (hb : Holds b ys) (st : UnionState S)
    (hinv : UnionInv a b xs ys st) (hi : st.i < xs.length) (hj : st.j < ys.length) :
    ∃ st', unionStep a b st = some st' ∧ UnionInv a b xs ys st' ∧ st.Advanced st' := by
  obtain ⟨⟨out, hw, heq⟩, hs⟩ := hinv
  obtain ⟨sx, hx, hsx⟩ := ha.entryAt hi
  obtain ⟨sy, hy, hsy⟩ := hb.entryAt hj
  rw [drop_eq_getElem_cons hi, drop_eq_getElem_cons hj, mergeDesc] at heq
  simp only [unionStep, hx, hy]
  by_cases hgt : xs[st.i] > ys[st.j]
  · rw [if_pos hgt, ← drop_eq_getElem_cons hj] at heq
    rw [if_pos hgt]
    exact ⟨_, rfl, .write hw hs (fun has _ => by simp [hsx has]) heq, .inl ⟨rfl, rfl⟩⟩
  · rw [if_neg hgt] at heq ⊢
    by_cases hlt : xs[st.i] < ys[st.j]
    · rw [if_pos hlt, ← drop_eq_getElem_cons hi] at heq
      rw [if_pos hlt]
      exact ⟨_, rfl, .write hw hs (fun _ hbs => by simp [hsy hbs]) heq, .inr (.inl ⟨rfl, rfl⟩)⟩
    · rw [if_neg hlt] at heq ⊢
      exact ⟨_, rfl, .write hw hs (fun has _ => addScores_isSome (hsx has) sy) heq,
        .inr (.inr ⟨rfl, rfl⟩)⟩

omit [Add S] in
/-- The rest of the other list is written. -/
theorem restLoop_spec (hb : Holds b ys) :
    ∀ (fuel : Nat) (st : UnionState S) (out : List UInt32), Written st out → st.j ≤ ys.length →
      ys.length - st.j < fuel →
      ∃ st', restLoop b fuel st = some st' ∧ Written st' (out ++ ys.drop st.j) ∧
        (Scored b → ScoredSoFar st → ScoredSoFar st') := by
  intro fuel
  induction fuel with
  | zero => intro st out _ _ hfuel; omega
  | succ fuel ih =>
    intro st out h hj hfuel
    unfold restLoop
    rw [hb.num]
    by_cases hmore : st.j < ys.length
    · obtain ⟨sy, hy, hsy⟩ := hb.entryAt hmore
      rw [if_pos hmore, hy]
      obtain ⟨st', hloop, h', hs⟩ := ih _ _
        ((h.write ys[st.j] (sy.map fun s _ => s)).moved st.i (st.j + 1)) hmore
        (show ys.length - (st.j + 1) < fuel by omega)
      rw [append_assoc, singleton_append, ← drop_eq_getElem_cons hmore] at h'
      exact ⟨st', hloop, h', fun hbs hst =>
        hs hbs (hst.write h _ (by simp [hsy hbs]) st.i (st.j + 1))⟩
    · rw [if_neg hmore, drop_of_length_le (by omega), append_nil]
      exact ⟨st, rfl, h, fun _ => id⟩

/-- Lists as these loops leave them: full nodes, and one behind them that is
not full. -/
structure Trailing (l : RowidList S) : Prop where
  nodes_length : l.nodes.length = l.rowidNum / 256 + 1
  tail_eq : l.tail = l.nodes.length - 1

omit [Zero S] [Add S] in
theorem Written.trailing (h : Written st out) :
    Holds (S := S) ⟨st.k, st.nodes, st.nodes.length - 1⟩ out ∧
      Trailing (S := S) ⟨st.k, st.nodes, st.nodes.length - 1⟩ :=
  ⟨⟨h.k_eq, h.at_eq⟩, h.nodes_length.trans (by rw [h.k_eq]), rfl⟩

/-- The loops of `rowid_union`. -/
theorem unionLists_holds (ha : Holds a xs) (hb : Holds b ys) :
    ∃ l, unionLists a b = some l ∧ Holds l (mergeDesc xs ys) ∧ Trailing l ∧
      (Scored a → Scored b → Scored l) := by
  obtain ⟨st, hloop, ⟨⟨out, h, heq⟩, hs⟩, hi, hj, hend⟩ := walkLoop_spec (UnionInv a b xs ys)
    ⟨⟨[], written_nil 0 0, rfl⟩, fun _ _ _ hp => nomatch hp⟩ (unionStep_spec ha hb)
  unfold unionLists
  rw [unionLoop_eq, ha.num, hb.num, hloop, Option.bind_some]
  by_cases hjend : st.j = ys.length
  · -- the second list is used up: go on with the first
    obtain ⟨st', hrest, h', hs'⟩ := restLoop_spec ha (xs.length + 1) { st with j := st.i } out
      (h.moved st.i st.i) hi (by show xs.length - st.i < _; omega)
    rw [hjend, drop_length, mergeDesc_nil_right] at heq
    rw [if_pos hjend, hrest, ← heq]
    exact ⟨_, rfl, h'.trailing.1, h'.trailing.2, fun has hbs => hs' has (hs has hbs)⟩
  · obtain ⟨st', hrest, h', hs'⟩ := restLoop_spec hb (ys.length + 1) st out h hj (by omega)
    rw [hend.resolve_right hjend, drop_length, mergeDesc_nil_left] at heq
    rw [if_neg hjend, hrest, ← heq]
    exact ⟨_, rfl, h'.trailing.1, h'.trailing.2, fun has hbs => hs' hbs (hs has hbs)⟩

/-- `rowid_union` merges the two lists. -/
theorem rowidUnion_holds {a b : Option (RowidList S)} (ha : ResultHolds a xs)
    (hb : ResultHolds b ys) :
    ∃ r, rowidUnion a b = some r ∧ ResultHolds r (mergeDesc xs ys) := by
  cases a with
  | none =>
    obtain rfl : xs = [] := ha
    exact ⟨b, rfl, by rw [mergeDesc_nil_left]; exact hb⟩
  | some a =>
    have ha' : Holds a xs := ha
    cases b with
    | none =>
      obtain rfl : ys = [] := hb
      refine ⟨_, rfl, ?_⟩
      rw [mergeDesc_nil_right]
      split
      · next h0 => exact ha'.rowidNum_eq_zero.mp h0
      · exact ha
    | some b =>
      have hb' : Holds b ys := hb
      unfold rowidUnion
      by_cases ha0 : a.rowidNum = 0
      · rw [ha'.rowidNum_eq_zero.mp ha0, mergeDesc_nil_left]
        exact ⟨some b, by simp only [if_pos ha0], hb⟩
      · by_cases hb0 : b.rowidNum = 0
        · rw [hb'.rowidNum_eq_zero.mp hb0, mergeDesc_nil_right]
          exact ⟨some a, by simp only [if_neg ha0, if_pos hb0], ha⟩
        · obtain ⟨l, hl, hholds, -⟩ := unionLists_holds ha' hb'
          exact ⟨some l, by simp only [if_neg ha0, if_neg hb0, hl, Option.map_some], hholds⟩

end Union

end Mile.DocDb
