/-
  Mile.Ldb.Cumulative
  ───────────────────
  **THE CUMULATIVE INDEX** (`storage/ldb/LdbTableImpl.cpp`, `CumulativeInsert`, `CumulativeQuery`
  and `InnerCumulativeQuery`).

  The table keeps aggregates only: for every row key and step, one array for each bucket `(T -
  step, T]` that has a row.  A query takes large buckets from the middle of its time range and
  smaller ones left and right of them.
-/
import Mile.Ldb.Range
import Mile.Ldb.RowKey
import Mile.Ldb.AggregateDesc
import Mile.Lib.RoundUp

namespace Mile.Ldb

open Lib Common DocDb Execute

/-! ## §1. Tables. -/

/-- A table with a cumulative index: keys with a time of 4 or 8 bytes, steps each
of which divides the next, and the functions it aggregates, in order. -/
structure CumulativeTable where
  keys : LdbKeys
  hasTime : keys.timeKey ≠ []
  timeLen : keys.timeKeyLen = 4 ∨ keys.timeKeyLen = 8
  steps : List Nat
  steps_pos : ∀ s ∈ steps, 0 < s
  steps_lt : ∀ s ∈ steps, s < 2 ^ 64
  steps_chain : steps.IsChain fun a b => a < b ∧ a ∣ b
  descs : List AggregateDesc
  descs_sorted : AggregateDesc.Sorted descs
  descs_empty : ∀ d ∈ descs, d.value = zeroData
  descs_size : descs.length < 2 ^ 32

/-- The two stores: `db_` with the buckets of the least step, `cumulative_db_`
with the others. -/
structure CumulativeDb (timeLen : Nat) where
  db : LevelDb timeLen
  cumulativeDb : LevelDb timeLen

namespace CumulativeDb

variable {timeLen : Nat}

/-- The store of a level: `cumulative_step_[level].second`. -/
def storeAt (st : CumulativeDb timeLen) (level : Nat) : LevelDb timeLen :=
  if level = 0 then st.db else st.cumulativeDb

def putAt (st : CumulativeDb timeLen) (level : Nat) (key value : Bytes) : CumulativeDb timeLen :=
  if level = 0 then { st with db := st.db.put key value }
  else { st with cumulativeDb := st.cumulativeDb.put key value }

def empty : CumulativeDb timeLen := ⟨OrderedStore.empty, OrderedStore.empty⟩

end CumulativeDb

def levelByte (level : Nat) : UInt8 := 255 - UInt8.ofNat level

def bucketKey (timeLen : Nat) (row : Bytes) (level t : Nat) : Bytes :=
  row ++ levelByte level :: leBytes timeLen t

/-! ## §2. Inserting a row. -/

section Insert

variable (funcs : AggrFunc.OtherFuncs)

/-- The aggregate of one row: of the first column with the name, or of the row
itself for `*`. -/
def rowValue (rdata : RowData) (d : AggregateDesc) : Option AggregateDesc :=
  if d.name = [42] then
    (AggrFunc.computeFunc funcs d.funcType d.value none).map fun v => { d with value := v }
  else
    match rdata.datas.find? fun f => d.name = f.fieldName with
    | some f =>
      (AggrFunc.computeFunc funcs d.funcType d.value (some f)).map fun v => { d with value := v }
    | none => some d

def insertLevel {timeLen : Nat} (row : Bytes) (time : Nat) (new : List AggregateDesc)
    (level step : Nat) (st : CumulativeDb timeLen) : Option (CumulativeDb timeLen) := do
  let rem := time % step
  let t := if rem ≠ 0 then (time - rem + step) % 2 ^ 64 else time
  let key := bucketKey timeLen row level t
  let value ←
    match (st.storeAt level).get key with
    | none => some new
    | some valueStr => do
      let queried ← AggregateDesc.fromLowData valueStr
      AggregateDesc.merge funcs queried new
  return st.putAt level key (AggregateDesc.toLowData value)

def insertLevels {timeLen : Nat} (row : Bytes) (time : Nat) (new : List AggregateDesc) :
    Nat → List Nat → CumulativeDb timeLen → Option (CumulativeDb timeLen)
  | _, [], st => some st
  | level, step :: steps, st => do
    let st ← insertLevel funcs row time new level step st
    insertLevels row time new (level + 1) steps st

/-- `LdbTableImpl::InsertRow` of a table with a cumulative index:
`CumulativeInsert` with the keys of the row. -/
def cumulativeInsert (table : CumulativeTable) (rdata : RowData)
    (st : CumulativeDb table.keys.timeKeyLen) : Option (CumulativeDb table.keys.timeKeyLen) := do
  let (row, time) ← findRowKey table.keys rdata
  let time ← time
  let new ← table.descs.mapM (rowValue funcs rdata)
  insertLevels funcs row.data (leNat time.data) new 0 table.steps st

end Insert

/-! ## §3. Querying a range. -/

section Query

variable (funcs : AggrFunc.OtherFuncs) (timeLen : Nat)

/-- The variables of the loop of `InnerCumulativeQuery`. -/
structure QueryLoop where
  hasValidValue : Bool
  lrInvalid : Bool
  rrInvalid : Bool
  lrEnd : Nat
  rrStart : Nat
  result : List AggregateDesc

/-- The check of the left bound for a bucket at `tv`, as long as none was valid. -/
def checkLeft (range : Range) (step : Nat) (lb key : Bytes) (s : QueryLoop) : QueryLoop :=
  let lt := leNat range.start
  let tv := keyTime timeLen key
  if (LdbComparator.mk timeLen false).compare key lb = 0 then
    if range.inclusiveStart && (step = 1 || lt = 0) then
      { s with lrInvalid := true, hasValidValue := true }
    else s
  else if (lt + step) % 2 ^ 64 = tv then
    if !range.inclusiveStart then { s with lrInvalid := true, hasValidValue := true } else s
  else if (lt + step) % 2 ^ 64 < tv then
    { s with hasValidValue := true, lrEnd := tv - step }
  else s

def queryLoop (range : Range) (step : Nat) (lb rb : Bytes) :
    List (Bytes × Bytes) → QueryLoop → Option QueryLoop
  | [], s => some s
  | (key, value) :: es, s =>
    let rc := (LdbComparator.mk timeLen false).compare key rb
    if rc > 0 then some s
    else if rc = 0 && !range.inclusiveEnd then some s
    else
      let s := if rc = 0 then { s with rrInvalid := true } else s
      let s := if s.hasValidValue then s else checkLeft timeLen range step lb key s
      if s.hasValidValue then do
        let v ← AggregateDesc.fromLowData value
        let result ← AggregateDesc.merge funcs s.result v
        queryLoop range step lb rb es
          { s with rrStart := keyTime timeLen key, result := result }
      else queryLoop range step lb rb es s

def leftRange (range : Range) (lrEnd : Nat) : Range :=
  ⟨range.inclusiveStart, true, true, true, false, range.start, leBytes timeLen lrEnd⟩

def rightRange (range : Range) (rrStart : Nat) : Range :=
  ⟨false, range.inclusiveEnd, true, true, false, leBytes timeLen rrStart, range.stop⟩

/-- `LdbTableImpl::InnerCumulativeQuery`, on the buckets of a row key. -/
def innerCumulativeQuery (steps : List Nat) (st : CumulativeDb timeLen) (row : Bytes) :
    Nat → Range → List AggregateDesc → Option (List AggregateDesc)
  | level, range, result => do
    let lt := leNat range.start
    let rt := leNat range.stop
    let lb := row ++ levelByte level :: range.start
    let rb := row ++ levelByte level :: range.stop
    let step ← steps[level]?
    let s ← queryLoop funcs timeLen range step lb rb ((st.storeAt level).seek lb)
      ⟨false, false, false, 0, 0, result⟩
    match level with
    | 0 => some s.result
    | level + 1 =>
      if !s.hasValidValue then innerCumulativeQuery steps st row level range s.result
      else if (!s.lrInvalid && lt > s.lrEnd) || (!s.rrInvalid && s.rrStart > rt) then none
      else do
        let result ←
          if s.lrInvalid then some s.result
          else innerCumulativeQuery steps st row level (leftRange timeLen range s.lrEnd) s.result
        if s.rrInvalid then some result
        else innerCumulativeQuery steps st row level (rightRange timeLen range s.rrStart) result

end Query

/-- The time range with both ends: from the least time, up to the greatest. -/
def wholeTimeRange (timeLen : Nat) (time : Range) : Range where
  inclusiveStart := time.inclusiveStart || !time.hasStart
  inclusiveEnd := time.inclusiveEnd || !time.hasEnd
  hasStart := true
  hasEnd := true
  invalid := time.invalid
  start := if time.hasStart then time.start else List.replicate timeLen 0
  stop := if time.hasEnd then time.stop else List.replicate timeLen 0xff

/-- `LdbTableImpl::CumulativeQuery`: the aggregates asked for, with the values of
the buckets merged into them. -/
def cumulativeQuery (funcs : AggrFunc.OtherFuncs) (table : CumulativeTable)
    (st : CumulativeDb table.keys.timeKeyLen) (conds : List FilterCondition)
    (result : List AggregateDesc) : Option (List AggregateDesc) := do
  let (row, time) ← getRange table.keys.rowKey table.keys.timeKey conds
  if !(row.hasStart && row.hasEnd) || row.start ≠ row.stop || !row.inclusiveStart ||
      !row.inclusiveEnd then none
  else if row.invalid || time.invalid then some result
  else if (time.hasStart && time.start.length ≠ table.keys.timeKeyLen) ||
      (time.hasEnd && time.stop.length ≠ table.keys.timeKeyLen) then none
  else
    innerCumulativeQuery funcs table.keys.timeKeyLen table.steps st row.start
      (table.steps.length - 1) (wholeTimeRange table.keys.timeKeyLen time) result

end Mile.Ldb
