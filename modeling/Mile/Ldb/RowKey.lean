/-
  Mile.Ldb.RowKey
  ───────────────
  **THE KEY OF A ROW** (`storage/ldb/LdbTableImpl.cpp`, `FindRowKey` and `SpliceKey`).

  The key of a row in the store is the value of its row key column with that of its time, or the
  host's clock, behind it.
-/
import Mile.Common.Def

namespace Mile.Ldb

open Lib Common

structure LdbKeys where
  rowKey : Bytes
  timeKey : Bytes
  timeKeyLen : Nat

/-- `LdbTableImpl::UseHostTime`. -/
def LdbKeys.useHostTime (keys : LdbKeys) : Bool := keys.timeKey = [] && keys.timeKeyLen > 0

/-- The loop of `FindRowKey`, with the two values found so far. -/
def findKeys (keys : LdbKeys) :
    List LowData → Option LowData → Option LowData → Option LowData × Option LowData
  | [], row, time => (row, time)
  | d :: ds, row, time =>
    let row := if keys.rowKey = d.fieldName then some d else row
    if keys.rowKey = d.fieldName && (time.isSome || keys.timeKey = []) then (row, time)
    else if keys.timeKey ≠ [] && keys.timeKey = d.fieldName then
      if row.isSome then (row, some d) else findKeys keys ds row (some d)
    else findKeys keys ds row time

/-- `LdbTableImpl::FindRowKey`: the values of the row key and of the time. -/
def findRowKey (keys : LdbKeys) (rdata : RowData) : Option (LowData × Option LowData) :=
  match findKeys keys rdata.datas none none with
  | (none, _) => none
  | (some row, time) =>
    if keys.timeKey ≠ [] && time.isNone then none
    else if row.type ≠ .string && row.type ≠ .null then none
    else if time.any fun t => t.len ≠ keys.timeKeyLen then none
    else some (row, time)

/-- `LdbTableImpl::SpliceKey`; `now` is the clock of the host. -/
def spliceKey (keys : LdbKeys) (now : Nat) (row : LowData) (time : Option LowData) : Bytes :=
  row.data ++
    match time with
    | some time => time.data
    | none => if keys.useHostTime then leBytes 4 now else []

end Mile.Ldb
