/-
  Mile.Merge.Plan
  ───────────────
  **THE PLAN OF A QUERY** (`plan/SqlAnalyzer.java`, `SelectStep.java`,
  `HavingStep.java`, `OrderStep.java`, `OrderComparator.java`, `OutputStep.java`).

  The records of a set have no positions.  `OutputStep` has another loop for them.
-/
import Mile.Lib.TopRows
import Mile.Merge.SqlAnalyzer
import Mile.Merge.GroupStep

namespace Mile.Merge

open Lib Common List

/-! ## §1. The records of the nodes. -/

/-- `SqlResultSet.data`: a list, or a hash set in the order in which it is visited. -/
inductive ResultData where
  | list (records : List Record)
  | set (records : List Record)

def ResultData.records : ResultData → List Record
  | .list records => records
  | .set records => records

/-- `HashSet.add`: records are equal if their data are. -/
def addRecord (set : List Record) (record : Record) : List Record :=
  if set.any fun r => r.data = record.data then set else set ++ [record]

/-- `SelectStep.execute`, from the answers of the nodes; a node that failed has none. -/
def selectStep (order : HashOrder) (stmt : QueryStatement)
    (messages : List (Option (List Record))) : ResultData :=
  let records := messages.flatMap fun message => message.getD []
  match stmt.accessType with
  | .commonQuery => .list records
  | .commonDistinct | .commonDistinctCount => .set (order.visit (records.foldl addRecord []))

/-! ## §2. `HavingStep`. -/

/-- `HavingStep.compare`. -/
def havingCompare (o1 o2 : Cell) : Except Fault Int :=
  if o1 = .null ∧ o2 = .null then .ok 0
  else if o1 = .null then .ok (-1)
  else if o2 = .null then .ok 1
  else
    match o1, o2 with
    | .value a, .value b =>
      if a.comparable.isSome && b.comparable.isSome then a.compareTo b else .error .sqlExecute
    | _, _ => .error .sqlExecute

/-- `left.equals(right)`; `null` has no methods. -/
def cellEquals (left : Cell) (right : Value) : Except Fault Bool :=
  if left = .null then .error .nullPointer else .ok (left = .value right)

def havingTest (left : Cell) (right : List Value) (i : Nat) (test : Int → Bool) :
    Except Fault Bool := do
  return test (← havingCompare left (.value (← getValue right i)))

/-- The loop for `IN`. -/
def havingIn (left : Cell) : List Value → Except Fault Bool
  | [] => .ok false
  | v :: vs => do if ← cellEquals left v then return true else havingIn left vs

/-- The comparisons of `having`. -/
def havingLeaf (left : Cell) (comparetor : CompareType) (right : List Value) :
    Except Fault Bool :=
  match comparetor with
  | .eq => do cellEquals left (← getValue right 0)
  | .ne => do return !(← cellEquals left (← getValue right 0))
  | .lt => havingTest left right 0 fun c => c < 0
  | .ge => havingTest left right 0 fun c => c ≥ 0
  | .gt => havingTest left right 0 fun c => c > 0
  | .le => havingTest left right 0 fun c => c ≤ 0
  | .betweenLeg =>
    bothTests (havingTest left right 0 fun c => c ≥ 0) (havingTest left right 1 fun c => c < 0)
  | .betweenLege =>
    bothTests (havingTest left right 0 fun c => c ≥ 0) (havingTest left right 1 fun c => c ≤ 0)
  | .betweenLg =>
    bothTests (havingTest left right 0 fun c => c > 0) (havingTest left right 1 fun c => c < 0)
  | .betweenLge =>
    bothTests (havingTest left right 0 fun c => c > 0) (havingTest left right 1 fun c => c ≤ 0)
  | .in => havingIn left right
  | .match => .error .sqlExecute

/-- `computeHavingIndex`: every column is one of the select list. -/
def havingFound (selectFields : List FieldDesc) : Expression → Bool
  | .operator _ left right => havingFound selectFields left && havingFound selectFields right
  | .column field _ _ => (field.indexOf selectFields).isSome
  | .other => false

/-- `having`. -/
def having (selectFields : List FieldDesc) (record : Record) : Expression → Except Fault Bool
  | .operator .logicAnd left right =>
    bothTests (having selectFields record left) (having selectFields record right)
  | .operator .logicOr left right => do
    if ← having selectFields record left then return true
    else having selectFields record right
  | .operator .other _ _ => .error .sqlExecute
  | .column field comparetor values =>
    match field.indexOf selectFields with
    | none => .error .sqlExecute
    | some index => do havingLeaf (← getCell record.data index) comparetor values
  | .other => .error .sqlExecute

def havingLoop (selectFields : List FieldDesc) (condition : Expression) :
    List Record → Except Fault (List Record)
  | [] => .ok []
  | record :: records => do
    let keep ← having selectFields record condition
    let rest ← havingLoop selectFields condition records
    return if keep then record :: rest else rest

/-- `HavingStep`, its constructor and `execute`. -/
def havingStep (selectFields : List FieldDesc) (condition : Expression) (records : List Record) :
    Except Fault (List Record) :=
  if havingFound selectFields condition then havingLoop selectFields condition records
  else .error .sqlExecute

/-! ## §3. `OrderStep`. -/

/-- `OrderComparator`: the columns, by their positions. -/
abbrev OrderIndex : Type := List (Nat × OrderTypes)

/-- The constructor of `OrderComparator`. -/
def OrderIndex.make (orderFields : List OrderDesc) (selectFields : List FieldDesc) :
    Except Fault OrderIndex :=
  if orderFields = [] ∨ selectFields = [] then .error .sqlExecute
  else orderFields.mapM fun order =>
    match order.field.indexOf selectFields with
    | some j => .ok (j, order.type)
    | none => .error .sqlExecute

/-- The sign of two objects of a column; no sign if they are no comparable objects. -/
def compareCells (o1 o2 : Cell) : Except Fault (Option Int) :=
  if o1 = .null ∧ o2 = .null then .ok (some 0)
  else if o1 = .null then .ok (some (-1))
  else if o2 = .null then .ok (some 1)
  else
    match o1, o2 with
    | .value a, .value b =>
      if a.comparable.isSome && b.comparable.isSome then do return some (← a.compareTo b)
      else .ok none
    | _, _ => .ok none

/-- `OrderComparator.compare`. -/
def orderCompare : OrderIndex → List Cell → List Cell → Except Fault Int
  | [], _, _ => .ok 0
  | (i, type) :: rest, r1, r2 => do
    match ← compareCells (← getCell r1 i) (← getCell r2 i) with
    | none => return 0
    | some ret =>
      if ret = 0 then orderCompare rest r1 r2
      else return if type = .desc then -ret else ret

/-- `OrderStep.execute`: `Collections.sort` is stable. -/
def orderStep (index : OrderIndex) (data : ResultData) : Except Fault ResultData := do
  return .list (← sortM (fun a b => orderCompare index a.data b.data) data.records)

/-! ## §4. `OutputStep`. -/

/-- The constructor of `OutputStep`: where the selected columns stand. -/
def selectIndex (selectFields resultFields : List FieldDesc) (offset limit : Nat) :
    Except Fault (List Nat) :=
  if offset > limit then .error .illegalSql
  else selectFields.mapM fun field =>
    match field.indexOf resultFields with
    | some j => .ok j
    | none => .error .illegalSql

def outputRecord (index : List Nat) (record : Record) : Except Fault Record := do
  return { record with data := ← index.mapM (getCell record.data) }

def outputColumns (index : List Nat) (record : Record) : Except Fault (List Record) :=
  index.mapM fun i => do return { record with data := [← getCell record.data i] }

/-- `OutputStep.execute`. -/
def outputStep (index : List Nat) (offset limit : Nat) (data : ResultData) :
    Except Fault (List Record) :=
  if data.records.length < offset then .ok []
  else
    let up := if limit < data.records.length then limit else data.records.length
    match data with
    | .list records => ((records.take up).drop offset).mapM (outputRecord index)
    | .set records => do
      return (← (records.take (up - offset)).mapM (outputColumns index)).flatten

/-! ## §5. The plan. -/

namespace QueryStatement

def isGrouped (stmt : QueryStatement) : Bool :=
  stmt.rewrite.selectFields.any fun field =>
    field.isComputeField || stmt.rewrite.groupByFields.length > 0

/-- The `GroupStep` of the plan, if there is one. -/
def groupData (doubles : DoubleFuncs) (order : HashOrder) (stmt : QueryStatement)
    (data : ResultData) : Except Fault ResultData :=
  if stmt.isGrouped then do
    let step ← GroupStep.make stmt.rewrite.groupByFields stmt.rewrite.selectFields
    return .list (← step.execute doubles order data.records)
  else .ok data

/-- The `HavingStep`. -/
def havingData (stmt : QueryStatement) (data : ResultData) : Except Fault ResultData :=
  match stmt.rewrite.having with
  | none => .ok data
  | some condition => do
    return .list (← havingStep stmt.rewrite.selectFields condition data.records)

/-- The `OrderStep`. -/
def orderData (stmt : QueryStatement) (data : ResultData) : Except Fault ResultData :=
  if stmt.rewrite.orderFields = [] then .ok data
  else do orderStep (← OrderIndex.make stmt.rewrite.orderFields stmt.rewrite.selectFields) data

/-- The plan that `analyze` makes, run on the answers of the nodes. -/
def plan (doubles : DoubleFuncs) (order : HashOrder) (stmt : QueryStatement)
    (messages : List (Option (List Record))) : Except Fault (List Record) := do
  let index ← selectIndex stmt.selectFields stmt.rewrite.selectFields stmt.offset stmt.limit
  let data ← stmt.groupData doubles order (selectStep order stmt.rewrite messages)
  let data ← stmt.havingData data
  let data ← stmt.orderData data
  outputStep index stmt.offset stmt.limit data

end QueryStatement

def noDoubles : DoubleFuncs := ⟨fun _ _ _ => .error .sqlExecute, fun _ _ => .error .sqlExecute⟩

def fillOrder : HashOrder := ⟨id, fun _ => Perm.refl _⟩

/-! ## §6. Queries of plain columns. -/

abbrev Row : Type := String → Value

def tuple (fields : List FieldDesc) (row : Row) : List Cell :=
  fields.map fun field => .value (row field.fieldName)

/-- The columns of the row have values of the classes of the columns, or none. -/
def Row.Typed (classOf : String → JavaClass) (names : List String) (row : Row) : Prop :=
  ∀ name ∈ names, row name = .null ∨ (row name).comparable = some (classOf name)

/-- The place of a value in a column: `null` comes first. -/
def Value.rank (v : Value) : List Int := if v = .null then [] else 0 :: v.place

def columnCmp (name : String) (type : OrderTypes) (a b : Row) : Int :=
  if type = .desc then -comp (a name).rank (b name).rank else comp (a name).rank (b name).rank

def rowCmp (orders : List (String × OrderTypes)) : Row → Row → Int :=
  lexCmp (orders.map fun order => columnCmp order.1 order.2)

section Plain

variable {classOf : String → JavaClass} {fields : List FieldDesc} {a b : Row} {c : JavaClass}

theorem comp_cons (n : Int) (p q : List Int) : comp (n :: p) (n :: q) = comp p q := by
  simp [comp]

theorem lawful_columnCmp (name : String) (type : OrderTypes) : LawfulCmp (columnCmp name type) := by
  have hasc : LawfulCmp fun a b : Row => comp (a name).rank (b name).rank := by
    constructor
    · intro a b
      rw [comp_neg_iff, comp_pos_iff]
    · intro a b c hab hbc
      rw [comp_nonpos_iff] at hab hbc ⊢
      exact hab.trans hbc
  cases type with
  | asc => exact hasc
  | desc => exact hasc.neg

theorem lawful_rowCmp (orders : List (String × OrderTypes)) : LawfulCmp (rowCmp orders) := by
  refine LawfulCmp.lex fun cmp hcmp => ?_
  obtain ⟨order, -, rfl⟩ := mem_map.mp hcmp
  exact lawful_columnCmp order.1 order.2

theorem compareCells_typed {v w : Value} (hv : v = .null ∨ v.comparable = some c)
    (hw : w = .null ∨ w.comparable = some c) :
    compareCells (.value v) (.value w) = .ok (some (comp v.rank w.rank)) := by
  have hnull : ∀ {u : Value}, u.comparable = some c → u ≠ .null := by
    rintro u hu rfl
    cases hu
  rcases hv with rfl | hv <;> rcases hw with rfl | hw
  · rfl
  · simp [compareCells, Value.rank, hnull hw, comp]
  · simp [compareCells, Value.rank, hnull hv, comp]
  · simp [compareCells, hnull hv, hnull hw, hv, hw, Value.compareTo_eq hv hw, Value.rank, comp_cons,
      bind, Except.bind, pure, Except.pure]

def position (fields : List FieldDesc) (field : FieldDesc) : Nat := (field.indexOf fields).getD 0

theorem indexOf_eq_position {field : FieldDesc} (h : field.key ∈ fields.map FieldDesc.key) :
    field.indexOf fields = some (position fields field) := by
  obtain ⟨j, another, hj, -, -⟩ := FieldDesc.indexOf_of_isIn h
  rw [position, hj]
  rfl

theorem getCell_tuple {field : FieldDesc} (h : field.key ∈ fields.map FieldDesc.key) (row : Row) :
    getCell (tuple fields row) (position fields field) = .ok (.value (row field.fieldName)) := by
  obtain ⟨j, another, hj, hget, hkey⟩ := FieldDesc.indexOf_of_isIn h
  have hname : another.fieldName = field.fieldName := congrArg Prod.snd hkey
  refine getCell_ok ?_
  rw [position, hj, Option.getD_some, tuple, getElem?_map, hget, Option.map_some, hname]

/-- **The comparator of the plan orders typed rows by their columns.** -/
theorem orderCompare_tuple {orders : List OrderDesc}
    (hfields : ∀ order ∈ orders, order.field.key ∈ fields.map FieldDesc.key)
    (ha : a.Typed classOf (orders.map fun order => order.field.fieldName))
    (hb : b.Typed classOf (orders.map fun order => order.field.fieldName)) :
    orderCompare (orders.map fun order => (position fields order.field, order.type))
        (tuple fields a) (tuple fields b) =
      .ok (rowCmp (orders.map fun order => (order.field.fieldName, order.type)) a b) := by
  induction orders with
  | nil => rfl
  | cons order orders ih =>
    obtain ⟨hhead, htail⟩ := forall_mem_cons.mp hfields
    obtain ⟨haHead, haTail⟩ := forall_mem_cons.mp ha
    obtain ⟨hbHead, hbTail⟩ := forall_mem_cons.mp hb
    have hrest := ih htail haTail hbTail
    simp only [map_cons, orderCompare, rowCmp, lexCmp, getCell_tuple hhead,
      compareCells_typed haHead hbHead, bind, Except.bind]
    by_cases hzero : comp (a order.field.fieldName).rank (b order.field.fieldName).rank = 0
    · have hcolumn : columnCmp order.field.fieldName order.type a b = 0 := by
        simp [columnCmp, hzero]
      rw [if_pos hzero, if_pos hcolumn]
      exact hrest
    · have hcolumn : columnCmp order.field.fieldName order.type a b ≠ 0 := by
        unfold columnCmp
        split_ifs <;> omega
      rw [if_neg hzero, if_neg hcolumn]
      rfl

end Plain

namespace QueryStatement

variable {stmt : QueryStatement}

def orders (stmt : QueryStatement) : List (String × OrderTypes) :=
  stmt.rewrite.orderFields.map fun order => (order.field.fieldName, order.type)

theorem rewrite_order_names :
    stmt.rewrite.orderFields.map (fun order => order.field.fieldName) = stmt.orderColumns := by
  rw [rewrite_orderFields, orderColumns, map_map]
  rfl

section

variable (h : stmt.PlainColumns)

include h

theorem select_mem_rewrite :
    ∀ field ∈ stmt.selectFields, field.key ∈ stmt.rewrite.selectFields.map FieldDesc.key := by
  intro field hfield
  rw [(h.select field hfield).key]
  exact (mem_rewrite_select h _).mpr (.inl (mem_map_of_mem hfield))

theorem order_mem_rewrite :
    ∀ order ∈ stmt.rewrite.orderFields,
      order.field.key ∈ stmt.rewrite.selectFields.map FieldDesc.key := by
  intro order horder
  have hname : order.field.fieldName ∈ stmt.orderColumns := by
    rw [← rewrite_order_names]
    exact mem_map_of_mem horder
  rw [rewrite_orderFields] at horder
  obtain ⟨o, ho, rfl⟩ := mem_map.mp horder
  rw [(orderField_plain h o ho).key]
  exact (mem_rewrite_select h _).mpr (.inr hname)

theorem not_isGrouped : stmt.isGrouped = false := by
  rw [isGrouped, any_eq_false]
  intro field hfield
  simp [(rewrite_select_plain h field hfield).1, rewrite_groupByFields h]

def positions (stmt : QueryStatement) : List Nat :=
  stmt.selectFields.map (position stmt.rewrite.selectFields)

theorem selectIndex_eq (hoffset : stmt.offset ≤ stmt.limit) :
    selectIndex stmt.selectFields stmt.rewrite.selectFields stmt.offset stmt.limit =
      .ok stmt.positions := by
  rw [selectIndex, if_neg (by omega), positions]
  have hmap := @mapM_map_ok FieldDesc FieldDesc Fault Nat
    (fun field => match field.indexOf stmt.rewrite.selectFields with
      | some j => .ok j | none => .error .illegalSql) id (position stmt.rewrite.selectFields)
    stmt.selectFields ?_
  · simpa using hmap
  · intro field hfield
    simp only [id, indexOf_eq_position (select_mem_rewrite h field hfield)]

theorem mapM_getCell_positions (row : Row) :
    stmt.positions.mapM (getCell (tuple stmt.rewrite.selectFields row)) =
      .ok (tuple stmt.selectFields row) :=
  mapM_map_ok fun field hfield => getCell_tuple (select_mem_rewrite h field hfield) row

/-- The places of the ORDER BY columns. -/
theorem orderIndex_eq (horder : stmt.rewrite.orderFields ≠ []) :
    OrderIndex.make stmt.rewrite.orderFields stmt.rewrite.selectFields =
      .ok (stmt.rewrite.orderFields.map fun order =>
        (position stmt.rewrite.selectFields order.field, order.type)) := by
  have hselect : stmt.rewrite.selectFields ≠ [] := by
    obtain ⟨order, ho⟩ := exists_mem_of_ne_nil _ horder
    intro hnil
    have hkey := order_mem_rewrite h order ho
    rw [hnil] at hkey
    simp at hkey
  rw [OrderIndex.make, if_neg (by simp [horder, hselect])]
  have hmap := @mapM_map_ok OrderDesc OrderDesc Fault (Nat × OrderTypes)
    (fun order => match order.field.indexOf stmt.rewrite.selectFields with
      | some j => .ok (j, order.type) | none => .error .sqlExecute) id
    (fun order => (position stmt.rewrite.selectFields order.field, order.type))
    stmt.rewrite.orderFields ?_
  · simpa using hmap
  · intro order ho
    simp only [id, indexOf_eq_position (order_mem_rewrite h order ho)]

end

theorem plan_eq (doubles : DoubleFuncs) (order : HashOrder) (h : stmt.PlainColumns)
    (hoffset : stmt.offset ≤ stmt.limit) (messages : List (Option (List Record))) :
    stmt.plan doubles order messages =
      (stmt.orderData (selectStep order stmt.rewrite messages)).bind
        (outputStep stmt.positions stmt.offset stmt.limit) := by
  simp only [plan, selectIndex_eq h hoffset, groupData, not_isGrouped h, havingData,
    rewrite_having h, Bool.false_eq_true, if_false, bind, Except.bind]

end QueryStatement

end Mile.Merge
