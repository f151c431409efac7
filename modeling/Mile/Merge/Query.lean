/-
  Mile.Merge.Query
  ────────────────
  **STATEMENTS** (`common/FieldDesc.java`, `common/Expression.java`,
  `server/query/ColumnExp.java`, `QueryStatement.java` and its siblings).

  A field is a column or a function of one.  A condition is a tree of AND and OR over comparisons,
  whose values are bound before the statement is run.
-/
import Mile.Merge.Value
import Mile.Common.AggrFunc

namespace Mile.Merge

open Common List

/-! ## §1. Fields. -/

/-- `StringUtils.isBlank`; a missing string is an empty one. -/
def isBlank (str : String) : Bool := str.toList.all Char.isWhitespace

/-- `FieldDesc`.  An expression after WITHIN is known by its reference. -/
structure FieldDesc where
  fieldName : String
  aliseName : String := ""
  functionName : String := ""
  functionId : Option FunctionType := none
  withinExpr : Option Nat := none
  refColumnName : String := ""
  deriving Repr, DecidableEq

namespace FieldDesc

/-- `FieldDesc.isComputeField`: the name of the function is not blank. -/
def isComputeField (field : FieldDesc) : Bool := !isBlank field.functionName

/-- `FieldDesc.equals`. -/
protected def equals (field another : FieldDesc) : Bool :=
  field.withinExpr = another.withinExpr && field.fieldName = another.fieldName

/-- `selectFields.indexOf(field)`. -/
def indexOf (fields : List FieldDesc) (field : FieldDesc) : Option Nat :=
  fields.findIdx? field.equals

/-- `selectFields.contains(field)`. -/
def isIn (fields : List FieldDesc) (field : FieldDesc) : Bool := fields.any field.equals

def withAlise (field : FieldDesc) : FieldDesc :=
  if isBlank field.aliseName then { field with aliseName := field.fieldName } else field

/-- What `equals` looks at. -/
def key (field : FieldDesc) : Option Nat × String := (field.withinExpr, field.fieldName)

theorem equals_iff (field another : FieldDesc) :
    field.equals another = true ↔ another.key = field.key := by
  rw [FieldDesc.equals, Bool.and_eq_true, decide_eq_true_eq, decide_eq_true_eq, key, key,
    Prod.mk.injEq]
  exact and_congr eq_comm eq_comm

theorem isIn_iff (fields : List FieldDesc) (field : FieldDesc) :
    field.isIn fields = true ↔ field.key ∈ fields.map key := by
  simp [isIn, equals_iff]

variable {field : FieldDesc}

theorem indexOf_of_isIn {fields : List FieldDesc} (h : field.key ∈ fields.map key) :
    ∃ j another, field.indexOf fields = some j ∧ fields[j]? = some another ∧
      another.key = field.key := by
  obtain ⟨another, hmem, hkey⟩ := mem_map.mp h
  have hfound : (fields.findIdx? field.equals).isSome := by
    rw [findIdx?_isSome, any_eq_true]
    exact ⟨another, hmem, (equals_iff field another).mpr hkey⟩
  obtain ⟨j, hj⟩ := Option.isSome_iff_exists.mp hfound
  obtain ⟨hlt, htest, -⟩ := findIdx?_eq_some_iff_getElem.mp hj
  exact ⟨j, fields[j], hj, getElem?_eq_getElem hlt, (equals_iff field _).mp htest⟩

@[simp] theorem withAlise_key (field : FieldDesc) : field.withAlise.key = field.key := by
  unfold withAlise
  split <;> rfl

@[simp] theorem withAlise_isComputeField (field : FieldDesc) :
    field.withAlise.isComputeField = field.isComputeField := by
  unfold withAlise
  split <;> rfl

def Plain (field : FieldDesc) : Prop := field.isComputeField = false ∧ field.withinExpr = none

theorem Plain.withAlise (h : field.Plain) : field.withAlise.Plain := by
  refine ⟨by simpa using h.1, ?_⟩
  have hkey := congrArg Prod.fst field.withAlise_key
  exact hkey.trans h.2

theorem Plain.key (h : field.Plain) : field.key = (none, field.fieldName) := by
  rw [FieldDesc.key, h.2]

end FieldDesc

/-- `OrderDesc`. -/
structure OrderDesc where
  field : FieldDesc
  type : OrderTypes
  deriving Repr, DecidableEq

/-! ## §2. Conditions. -/

/-- The operators of `OperatorExp`. -/
inductive Operator where
  | logicAnd
  | logicOr
  | other
  deriving Repr, DecidableEq

/-- `Expression`, with its values bound: an operator, a comparison of a column with
values or with the results of a sub-select, or some other expression. -/
inductive Expression where
  | operator (op : Operator) (left right : Expression)
  | column (field : FieldDesc) (comparetor : CompareType) (values : List Value)
  | other

/-! ## §3. Statements. -/

/-- The conditions of a query, an update, a delete or an export. -/
structure Statement where
  tableName : String
  hashWhere : Option Expression := none
  filterWhere : Option Expression := none

/-- `InsertStatement`, with the values bound to its columns. -/
structure InsertStatement where
  tableName : String
  documentValue : List FieldDesc
  valueList : List Value

inductive AccessType where
  | commonQuery
  | commonDistinct
  | commonDistinctCount
  deriving Repr, DecidableEq

/-- `QueryStatement`, as far as the plan of a query reads it. -/
structure QueryStatement extends Statement where
  accessType : AccessType := .commonQuery
  selectFields : List FieldDesc
  groupByFields : List FieldDesc := []
  having : Option Expression := none
  orderFields : List OrderDesc := []
  limit : Nat := 50
  offset : Nat := 0

end Mile.Merge
