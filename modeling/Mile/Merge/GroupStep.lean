/-
  Mile.Merge.GroupStep
  ────────────────────
  **GROUPS OF THE NODES' RESULTS** (`plan/GroupStep.java`).

  The records of the nodes are put into a map by the GROUP BY columns and merged function by
  function.  At the end a set becomes its size, and a count of nothing is zero.
-/
import Mile.Merge.Query
import Mile.Lib.Grouping

namespace Mile.Merge

open Lib Common

/-! ## §1. Functions. -/

/-- `count`. -/
def mergeCount (o1 o2 : Cell) : Except Fault Cell :=
  if o1 = .null then .ok o2
  else if o2 = .null then .ok o1
  else
    match o1, o2 with
    | .value (.long a), .value (.long b) => .ok (.value (.long (a + b)))
    | _, _ => .error .sqlExecute

/-- `max` and `min`: the second object is taken if `test` is true of the sign. -/
def mergePick (test : Int → Bool) (o1 o2 : Cell) : Except Fault Cell :=
  if o1 = .null then .ok o2
  else if o2 = .null then .ok o1
  else
    match o1, o2 with
    | .value a, .value b =>
      if a.comparable.isSome && b.comparable.isSome then do
        return if test (← a.compareTo b) then o2 else o1
      else .error .sqlExecute
    | _, _ => .error .sqlExecute

/-- `max`. -/
def mergeMax : Cell → Cell → Except Fault Cell := mergePick fun c => c < 0

/-- `min`. -/
def mergeMin : Cell → Cell → Except Fault Cell := mergePick fun c => !(c < 0)

/-- `countDistinct`. -/
def mergeCountDistinct (o1 o2 : Cell) : Except Fault Cell :=
  if o1 = .null then .ok o2
  else if o2 = .null then .ok o1
  else
    match o1, o2 with
    | .set a, .set b => .ok (.set (a ∪ b))
    | _, _ => .error .sqlExecute

/-- `sum`, `avg` and `var`, and how an average, a variance or a deviation is made of
what they carry. -/
structure DoubleFuncs where
  merge : FunctionType → Cell → Cell → Except Fault Cell
  finish : FunctionType → Cell → Except Fault Cell

section Step

variable (doubles : DoubleFuncs)

/-- The `switch` of `computeFunction`. -/
def mergeFunction (functionId : Option FunctionType) (base new : Cell) : Except Fault Cell :=
  match functionId with
  | some .count => mergeCount base new
  | some .max => mergeMax base new
  | some .min => mergeMin base new
  | some .countDistinct => mergeCountDistinct base new
  | some f => doubles.merge f base new
  | none => .error .sqlExecute

def finishFunction (functionId : Option FunctionType) (cell : Cell) : Except Fault Cell :=
  match functionId with
  | some .count => .ok (if cell = .null then .value (.long 0) else cell)
  | some .countDistinct =>
    if cell = .null then .ok (.value (.long 0))
    else
      match cell with
      | .set elements => .ok (.value (.long (Int64.ofNat elements.card)))
      | _ => .error .classCast
  | some .avg => if cell = .null then .ok .null else doubles.finish .avg cell
  | some .var => if cell = .null then .ok .null else doubles.finish .var cell
  | some .std => if cell = .null then .ok .null else doubles.finish .std cell
  | _ => .ok cell

def emptyFunction (functionId : Option FunctionType) : Cell :=
  match functionId with
  | some .count => .value (.long 0)
  | some .countDistinct => .value (.long 0)
  | _ => .null

/-! ## §2. The step. -/

/-- `GroupStep`: where the functions and the group columns stand. -/
structure GroupStep where
  selectFields : List FieldDesc
  funcIndex : List (Nat × Option FunctionType)
  groupIndex : List Nat

/-- The functions of the select list.  A column that is not a function must be one of
GROUP BY. -/
def funcIndexFrom (groupByFields : List FieldDesc) :
    List FieldDesc → Nat → Except Fault (List (Nat × Option FunctionType))
  | [], _ => .ok []
  | field :: fields, i =>
    if field.isComputeField then do
      return (i, field.functionId) :: (← funcIndexFrom groupByFields fields (i + 1))
    else if field.isIn groupByFields then funcIndexFrom groupByFields fields (i + 1)
    else .error .sqlExecute

/-- The constructor of `GroupStep`. -/
def GroupStep.make (groupByFields selectFields : List FieldDesc) : Except Fault GroupStep := do
  let funcIndex ← funcIndexFrom groupByFields selectFields 0
  let groupIndex ← groupByFields.mapM fun field =>
    match field.indexOf selectFields with
    | some j => .ok j
    | none => .error .sqlExecute
  return ⟨selectFields, funcIndex, groupIndex⟩

/-- `computeFunction`. -/
def computeFunction (new : List Cell) :
    List (Nat × Option FunctionType) → List Cell → Except Fault (List Cell)
  | [], base => .ok base
  | (index, functionId) :: rest, base => do
    let baseValue ← getCell base index
    let newValue ← getCell new index
    let value ← mergeFunction doubles functionId baseValue newValue
    computeFunction new rest (base.set index value)

def finishFunctions : List (Nat × Option FunctionType) → List Cell → Except Fault (List Cell)
  | [], data => .ok data
  | (index, functionId) :: rest, data => do
    let value ← finishFunction doubles functionId (← getCell data index)
    finishFunctions rest (data.set index value)

def GroupStep.putRecord (step : GroupStep) (key : List Cell) (record : Record) :
    List (List Cell × Record) → Except Fault (List (List Cell × Record))
  | [] => .ok [(key, record)]
  | (k, value) :: entries =>
    if k = key then do
      let data ← computeFunction doubles record.data step.funcIndex value.data
      return (k, { value with data := data }) :: entries
    else do
      return (k, value) :: (← GroupStep.putRecord step key record entries)

def GroupStep.collect (step : GroupStep) :
    List Record → List (List Cell × Record) → Except Fault (List (List Cell × Record))
  | [], map => .ok map
  | record :: records, map => do
    let key ← step.groupIndex.mapM (getCell record.data)
    GroupStep.collect step records (← step.putRecord doubles key record map)

/-- `execute`. -/
def GroupStep.execute (order : HashOrder) (step : GroupStep) (records : List Record) :
    Except Fault (List Record) := do
  let map ← step.collect doubles records []
  let groupResult ← (order.visit map).mapM fun entry => do
    return { entry.2 with data := ← finishFunctions doubles step.funcIndex entry.2.data }
  if groupResult = [] ∧ step.groupIndex = [] then
    return [⟨0, step.selectFields.map fun field => emptyFunction field.functionId⟩]
  else return groupResult

/-! ## §3. The loops. -/

theorem computeFunction_eq (new : List Cell) (funcIndex : List (Nat × Option FunctionType))
    (base : List Cell) :
    computeFunction doubles new funcIndex base =
      updateAtM (fun p cell => do mergeFunction doubles p.2 cell (← getCell new p.1)) Prod.fst
        .indexOutOfBounds funcIndex base := by
  induction funcIndex generalizing base with
  | nil => rfl
  | cons p rest ih =>
    obtain ⟨index, functionId⟩ := p
    unfold computeFunction updateAtM
    cases hget : base[index]? with
    | none =>
      have hcell : getCell base index = .error .indexOutOfBounds := by rw [getCell, hget]
      simp only [hcell, bind, Except.bind]
    | some cell =>
      rw [getCell_ok hget]
      cases hnew : getCell new index with
      | error fault => rfl
      | ok newValue =>
        simp only [bind, Except.bind]
        cases mergeFunction doubles functionId cell newValue with
        | error fault => rfl
        | ok value => exact ih _

theorem finishFunctions_eq (funcIndex : List (Nat × Option FunctionType)) (data : List Cell) :
    finishFunctions doubles funcIndex data =
      updateAtM (fun p cell => finishFunction doubles p.2 cell) Prod.fst .indexOutOfBounds
        funcIndex data := by
  induction funcIndex generalizing data with
  | nil => rfl
  | cons p rest ih =>
    obtain ⟨index, functionId⟩ := p
    unfold finishFunctions updateAtM
    cases hget : data[index]? with
    | none =>
      have hcell : getCell data index = .error .indexOutOfBounds := by rw [getCell, hget]
      simp only [hcell, bind, Except.bind]
    | some cell =>
      rw [getCell_ok hget]
      simp only [bind, Except.bind]
      cases finishFunction doubles functionId cell with
      | error fault => rfl
      | ok value => exact ih _

def GroupStep.mergeRecord (step : GroupStep) (record value : Record) : Except Fault Record := do
  let data ← computeFunction doubles record.data step.funcIndex value.data
  return { value with data := data }

theorem GroupStep.putRecord_eq (step : GroupStep) (key : List Cell) (record : Record)
    (map : List (List Cell × Record)) :
    step.putRecord doubles key record map =
      upsertM (.ok record) (step.mergeRecord doubles record) key map := by
  induction map with
  | nil => rfl
  | cons e entries ih =>
    obtain ⟨k, value⟩ := e
    unfold GroupStep.putRecord upsertM
    by_cases hk : k = key
    · rw [if_pos hk, if_pos hk, GroupStep.mergeRecord]
      cases computeFunction doubles record.data step.funcIndex value.data <;> rfl
    · rw [if_neg hk, if_neg hk, ih]

end Step

end Mile.Merge
