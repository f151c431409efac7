/-
  Mile.DocDb.Suffix
  ─────────────────
  **INDEX CONDITIONS** (`storage/docdb/suffix.c`, `set_operator.c`).

  An array in suffix form: an expression item asks an index, an operator item combines the two
  results before it.  A result is a list of segments with their rowids.
-/
import Mile.DocDb.RowidSets
import Mile.DocDb.DynamicHashIndex
import Mile.Lib.StackMachine

namespace Mile.DocDb

open Lib Common

/-! ## §1. Results over segments. -/

/-- Why there is no result: the function returns `NULL`, or it reads memory that
is not there. -/
inductive QueryStop where
  | null
  | fault
  deriving DecidableEq

section Segments

variable {S : Type} [Zero S] [Add S]

/-- A list of `struct segment_query_rowids`: `sid` and `rowids`. -/
abbrev SegRowids (S : Type) : Type := List (Nat × Option (RowidList S))

/-- `double_list_for_each_entry` with an operation on the rowids of two segments;
the walk ends with the shorter list. -/
def segPairs (f : Option (RowidList S) → Option (RowidList S) → Option (Option (RowidList S))) :
    SegRowids S → SegRowids S → Except QueryStop (SegRowids S)
  | (sida, a) :: lista, (sidb, b) :: listb =>
    if sida ≠ sidb then .error .null
    else
      match f a b with
      | none => .error .fault
      | some r =>
        match segPairs f lista listb with
        | .error e => .error e
        | .ok rlist => .ok ((sida, r) :: rlist)
  | _, _ => .ok []

/-- `seg_rowid_union`. -/
def segRowidUnion : SegRowids S → SegRowids S → Except QueryStop (SegRowids S) :=
  segPairs rowidUnion

/-- `seg_rowid_intersection`. -/
def segRowidIntersection : SegRowids S → SegRowids S → Except QueryStop (SegRowids S) :=
  segPairs rowidIntersection

/-- `seg_rowid_minus`. -/
def segRowidMinus : SegRowids S → SegRowids S → Except QueryStop (SegRowids S) :=
  segPairs rowidMinus

/-- `seg_rowid_fulltext_hence`. -/
def segRowidFulltextHence : SegRowids S → SegRowids S → Except QueryStop (SegRowids S) :=
  segPairs rowidFulltextHence

/-- `seg_rowid_count`, an `int32_t`. -/
def segRowidCount (list : SegRowids S) : Int :=
  int32 ((list.map fun p => (p.2.map RowidList.rowidNum).getD 0).sum % 2 ^ 32)

/-- `seg_rowid_setscore`. -/
def segRowidSetscore (score : S) : SegRowids S → Except QueryStop (SegRowids S)
  | [] => .ok []
  | (sid, r) :: list =>
    match rowidListSetscore score r with
    | none => .error .fault
    | some r' =>
      match segRowidSetscore score list with
      | .error e => .error e
      | .ok list' => .ok ((sid, r') :: list')

end Segments

/-! ## §2. The tables that are asked. -/

/-- The indexes of a table's segments, as far as queries see them: the rowids of
`segment_index_equal_query` for a segment, `NULL` or a strictly descending list,
and the number `segment_index_count_query` returns.  There are none if
`get_hash_value` writes behind its buffer. -/
structure SegmentIndexes (S : Type) where
  equalQuery : IndexKeyAlg → Nat → LowData → Option (Option (RowidList S))
  countQuery : Nat → LowData → Option Nat
  desc : ∀ {alg sid v r}, equalQuery alg sid v = some r →
    ∃ xs, ResultHolds r xs ∧ xs.Pairwise (· > ·)

/-- The hash and full-text indexes of a segment by field, each with the inserts it
holds. -/
structure SegmentFields where
  hash : Bytes → Option HashIndex
  fulltext : Bytes → Option DyhashIndex
  hashed : ∀ name h, hash name = some h →
    ∃ docs ins limit, Indexed h docs ins ∧ Ascending limit ins
  worded : ∀ name T, fulltext name = some T → ∃ ins, IndexHolds T ins

/-- `segment_index_equal_query` with `index_field_equal_query`: `NULL` for a field
without an index of the kind. -/
def segmentIndexEqualQuery {S : Type} [Zero S] [Add S] (segment : SegmentFields)
    (alg : IndexKeyAlg) (data : LowData) : Option (Option (RowidList S)) :=
  match alg with
  | .hash =>
    match segment.hash data.fieldName with
    | some h => hashing data (hashIndexQuery h data).join
    | none => some none
  | .fulltext =>
    match segment.fulltext data.fieldName with
    | some T => hashing data (dyhashIndexQuery T data).join
    | none => some none
  | _ => some none

/-- A segment answers with descending rowids. -/
theorem segmentIndexEqualQuery_desc {S : Type} [Zero S] [Add S] {segment : SegmentFields}
    {alg : IndexKeyAlg} {data : LowData} {r : Option (RowidList S)}
    (h : segmentIndexEqualQuery segment alg data = some r) :
    ∃ xs, ResultHolds r xs ∧ xs.Pairwise (· > ·) := by
  have hnull : some none = some r → ∃ xs, ResultHolds r xs ∧ xs.Pairwise (· > ·) := by
    rintro ⟨⟩
    exact ⟨[], rfl, .nil⟩
  unfold segmentIndexEqualQuery at h
  cases alg with
  | hash =>
    cases hfield : segment.hash data.fieldName with
    | none => exact hnull (by simpa only [hfield] using h)
    | some index =>
      obtain ⟨docs, ins, limit, hi, hasc⟩ := segment.hashed _ index hfield
      obtain ⟨r', hr, hholds⟩ := hi.query (S := S) data
      simp only [hfield, hr] at h
      obtain rfl : r' = r := (hashing_eq_some.mp h).2
      refine ⟨_, hholds, ?_⟩
      split
      · exact hasc.filter_desc _
      · split
        · exact .nil
        · exact hasc.filter_desc _
  | fulltext =>
    cases hfield : segment.fulltext data.fieldName with
    | none => exact hnull (by simpa only [hfield] using h)
    | some T =>
      obtain ⟨ins, -, -, fs, f, hfront, htail, -⟩ := segment.worded _ T hfield
      obtain ⟨r', ds, hquery, hr, hdesc, -⟩ := query_tables (S := S) data
        (List.rel_append hfront (List.Forall₂.cons htail List.Forall₂.nil))
        (show ResultHolds none [] from rfl) List.Pairwise.nil
      simp only [hfield, show dyhashIndexQuery T data = some r' from hquery] at h
      obtain rfl : r' = r := (hashing_eq_some.mp h).2
      exact ⟨ds, hr, hdesc⟩
  | _ => exact hnull h

/-- The indexes of segments, and the lengths `segment_index_count_query` returns. -/
def segmentIndexes {S : Type} [Zero S] [Add S] (segments : Nat → SegmentFields)
    (countQuery : Nat → LowData → Option Nat) : SegmentIndexes S where
  equalQuery alg sid data := segmentIndexEqualQuery (segments sid) alg data
  countQuery := countQuery
  desc := segmentIndexEqualQuery_desc

/-- A table: `TABLE_DEL`, `check_index`, the indexes of its segments, and the
numbers of records and of deleted records in some of them. -/
structure QueryTable (S : Type) where
  deleted : Bool
  checkIndex : Bytes → IndexKeyAlg → Bool
  indexes : SegmentIndexes S
  recordNum : List Nat → Int
  deleteNum : List Nat → Int

/-- The arithmetic of weights: the logarithm of a word's rarity, and a tenth. -/
structure Weights (S : Type) where
  weight : (total count : Int) → S
  tenth : S → S

/-- The arithmetic of `double`. -/
def doubleWeights : Weights Float where
  weight total count :=
    Float.log ((Float.ofInt (total - count) + 0.5) / (Float.ofInt count + 0.5))
  tenth x := x / 10

section Queries

variable {S : Type} [Zero S] [Add S] [Sub S] [LT S] [DecidableLT S]
  (w : Weights S) (table : QueryTable S) (segList : List Nat)

/-- `index_equal_query`; each segment is put in front of those before it. -/
def indexEqualQuery (alg : IndexKeyAlg) (data : LowData) : Except QueryStop (SegRowids S) :=
  if table.deleted then .error .null
  else if table.checkIndex data.fieldName alg = false then .error .null
  else
    match segList.mapM (table.indexes.equalQuery alg · data) with
    | some rs => .ok (segList.zip rs).reverse
    | none => .error .fault

/-- `table_index_count_query`, an unsigned 32-bit number. -/
def indexCountQuery (data : LowData) : Option Nat :=
  if table.deleted then some 0
  else if table.checkIndex data.fieldName .fulltext = false then some 0
  else (segList.mapM (table.indexes.countQuery · data)).map fun counts => counts.sum % 2 ^ 32

/-- `struct fulltext_word_t`. -/
structure FulltextWord (S : Type) where
  value : LowData
  weight : S
  count : Nat

def fulltextWord (data : LowData) : Option (FulltextWord S) :=
  let total := table.recordNum segList + table.deleteNum segList
  (indexCountQuery table segList data).map fun count : Nat =>
    ⟨data, if count = 0 then 0 else w.weight total count, count⟩

/-- The inner loop of the sort: the word at `i` changes places with every word
behind it that is heavier. -/
def sortInner (x : FulltextWord S) : List (FulltextWord S) → FulltextWord S × List (FulltextWord S)
  | [] => (x, [])
  | y :: ys =>
    if x.weight < y.weight then
      let r := sortInner y ys
      (r.1, x :: r.2)
    else
      let r := sortInner x ys
      (r.1, y :: r.2)

/-- The sort by weight, over `n` words. -/
def sortWords : Nat → List (FulltextWord S) → List (FulltextWord S)
  | n + 1, x :: xs =>
    let r := sortInner x xs
    r.1 :: sortWords n r.2
  | _, xs => xs

def wordQuery (word : FulltextWord S) : Except QueryStop (SegRowids S) := do
  let list ← indexEqualQuery table segList .fulltext word.value
  segRowidSetscore word.weight list

/-- The rowids of one more word: up to a thousand rowids, its own are added; after
that, they only restrict. -/
def addWord (ret tmpRet : SegRowids S) : Except QueryStop (SegRowids S) :=
  if segRowidCount ret < 1000 then segRowidUnion ret tmpRet
  else segRowidFulltextHence ret tmpRet

/-- The loop that selects the documents.  A query that returns `NULL` makes the
result `NULL`, as the operations on it do. -/
def matchLoop (weightSum : S) : S → SegRowids S → List (FulltextWord S) →
    Except QueryStop (SegRowids S)
  | _, ret, [] => .ok ret
  | weightCur, ret, word :: words =>
    if 10000 < word.count then .ok ret
    else do
      let tmpRet ← wordQuery table segList word
      let ret' ← addWord ret tmpRet
      let weightCur' := weightCur + word.weight
      if weightSum - weightCur' < w.tenth weightCur' then .ok ret'
      else matchLoop weightSum weightCur' ret' words

/-- `fulltext_match`; without a value there is no first word to read. -/
def fulltextMatch (values : List LowData) : Except QueryStop (SegRowids S) :=
  match (values.mapM (fulltextWord w table segList)).map (sortWords values.length) with
  | none => .error .fault
  | some [] => .error .fault
  | some (first :: words) => do
    let weightSum := (first :: words).foldl (fun sum word => sum + word.weight) 0
    let ret ← wordQuery table segList first
    matchLoop w table segList weightSum first.weight ret words

/-- `enum condition_type`. -/
inductive ConditionType where
  | conditionExp
  | logicAnd
  | logicOr
  | setMinus
  | unionHashExp
  deriving DecidableEq

/-- `struct condition_t`, the values with their number. -/
structure IndexCondition where
  type : ConditionType
  comparator : CompareType
  values : List LowData
  deriving DecidableEq

/-- `hash_compare_value`. -/
def hashCompareValue (cond : IndexCondition) : Except QueryStop (SegRowids S) :=
  match cond.comparator with
  | .eq =>
    match cond.values with
    | [] => .error .fault
    | v :: _ => indexEqualQuery table segList .hash v
  | .match => fulltextMatch w table segList cond.values
  | .in =>
    match cond.values with
    -- no value: a list without segments
    | [] => .ok []
    | v :: vs => do
      let ret ← indexEqualQuery table segList .hash v
      vs.foldlM (fun ret v => do
        let tmp ← indexEqualQuery table segList .hash v
        segRowidUnion ret tmp) ret
  | _ => .error .null

inductive SetOp where
  | and
  | or
  | minus
  deriving DecidableEq

/-- The `switch` of `hash_set_operations`. -/
def SetOp.apply : SetOp → SegRowids S → SegRowids S → Except QueryStop (SegRowids S)
  | .and => segRowidIntersection
  | .or => segRowidUnion
  | .minus => segRowidMinus

/-- `hash_set_operations`: the two topmost results are replaced. -/
def hashSetOperations (op : SetOp) (stack : List (SegRowids S)) :
    Except QueryStop (List (SegRowids S)) :=
  match stack with
  | right :: left :: stack => do
    let result ← op.apply left right
    .ok (result :: stack)
  | _ => .error .null

/-- The loop of `query_by_hash_conditions`. -/
def queryLoop : List IndexCondition → List (SegRowids S) →
    Except QueryStop (List (SegRowids S))
  | [], stack => .ok stack
  | cond :: conds, stack =>
    match cond.type with
    | .logicAnd => do queryLoop conds (← hashSetOperations .and stack)
    | .logicOr => do queryLoop conds (← hashSetOperations .or stack)
    | .setMinus => do queryLoop conds (← hashSetOperations .minus stack)
    | .conditionExp => do
      let result ← hashCompareValue w table segList cond
      queryLoop conds (result :: stack)
    | .unionHashExp => .error .null

/-- `query_by_hash_conditions`: what is on the stack below the result is not
looked at. -/
def queryByHashConditions (conds : List IndexCondition) : Except QueryStop (SegRowids S) := do
  match ← queryLoop w table segList conds [] with
  | [] => .error .null
  | result :: _ => .ok result

end Queries

end Mile.DocDb
