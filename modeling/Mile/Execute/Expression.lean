/-
  Mile.Execute.Expression
  ───────────────────────
  **FILTER EXPRESSIONS** (`execute/Expression.cpp`).

  `GenExp` makes a tree of an array of conditions in suffix form and lists the fields that are
  compared, each with the representation that its first comparison can do with.
-/
import Mile.Common.Compare
import Mile.DocDb.BuildIndex
import Mile.DocDb.Suffix

namespace Mile.Execute

open Lib Common DocDb List

/-! ## §1. Columns and conditions. -/

/-- `enum select_types_t`. -/
inductive SelectType where
  | original
  | hash
  | delay
  | skip
  deriving DecidableEq

/-- A column of `struct select_fields_t`. -/
structure FieldSelect where
  name : Bytes
  selectType : SelectType
  deriving DecidableEq

/-- A column of `struct select_row_t`. -/
structure SelectCell where
  data : LowData
  selectType : SelectType
  deriving DecidableEq

/-- `struct condition_t` of a filter, the values with their number. -/
structure FilterCondition where
  type : ConditionType
  fieldName : Bytes
  comparator : CompareType
  values : List LowData
  deriving DecidableEq

def comparesHashes (comparator : CompareType) : Bool :=
  comparator = .eq || comparator = .ne || comparator = .in

/-- A hashed value, as `GenExp` makes it. -/
def hashValue (v : LowData) : LowData := ⟨[], .longlong, hashCell v⟩

/-- The `hash_values` of a condition: a null pointer unless the comparator is
one for hashes. -/
def FilterCondition.hashValues (cond : FilterCondition) : Option (List LowData) :=
  if comparesHashes cond.comparator then some (cond.values.map hashValue) else none

/-! ## §2. `CompareValue`. -/

section Compare

variable (value : LowData)

/-- `compare_ld(value, &cond_values[i])`, if there is a value to read.  The
address of the first of no values is the null pointer. -/
def compareAt (condValues : Option (List LowData)) (i : Nat) : Option Int :=
  match condValues with
  | none => if i = 0 then some (-2) else none
  | some values => (values[i]?).map (compareLd value)

def compareOne (test : Int → Bool) (condValues : Option (List LowData)) : Option Int :=
  (compareAt value condValues 0).map fun ret => if test ret then 1 else 0

/-- A comparison with two values; the second is read if the first one passes. -/
def compareBetween (low high : Int → Bool) (condValues : Option (List LowData)) : Option Int :=
  (compareAt value condValues 0).bind fun ret =>
    if low ret then (compareAt value condValues 1).map fun ret => if high ret then 1 else 0
    else some 0

/-- The loop for `IN`. -/
def compareIn : List LowData → Int
  | [] => 0
  | v :: vs =>
    let ret := compareLd value v
    if ret = -2 then 0
    else if ret = 0 then 1
    else compareIn vs

/-- `CompareValue`. -/
def compareValue (comparator : CompareType) (condValues : Option (List LowData)) : Option Int :=
  match comparator with
  | .eq => compareOne value (fun ret => ret = 0) condValues
  | .ne => compareOne value (fun ret => ret ≠ -2 && ret ≠ 0) condValues
  | .lt => compareOne value (fun ret => ret = -1) condValues
  | .le => compareOne value (fun ret => ret = -1 || ret = 0) condValues
  | .ge => compareOne value (fun ret => ret = 1 || ret = 0) condValues
  | .gt => compareOne value (fun ret => ret = 1) condValues
  | .in => some (compareIn value (condValues.getD []))
  | .betweenLge =>
    compareBetween value (fun ret => ret = 1) (fun ret => ret = 0 || ret = -1) condValues
  | .betweenLege =>
    compareBetween value (fun ret => ret = 0 || ret = 1) (fun ret => ret = 0 || ret = -1)
      condValues
  | .betweenLg => compareBetween value (fun ret => ret = 1) (fun ret => ret = -1) condValues
  | .betweenLeg =>
    compareBetween value (fun ret => ret = 0 || ret = 1) (fun ret => ret = -1) condValues
  | .match => some (-1)

end Compare

/-! ## §3. Expressions. -/

/-- `class Expression`: a condition, and two operands if it is an operator. -/
inductive Expression where
  | leaf (cond : FilterCondition)
  | node (cond : FilterCondition) (left right : Expression)

/-- The branch of `Execute` for a comparison. -/
def executeCond (cond : FilterCondition) (row : List SelectCell) : Option Int :=
  match row.find? fun cell => cond.fieldName = cell.data.fieldName with
  | none => some (-1)
  | some cell =>
    compareValue cell.data cond.comparator
      (if cell.selectType = .hash then cond.hashValues else some cond.values)

/-- `Expression::Execute`; `none` when a value is read that is not there. -/
def Expression.execute (row : List SelectCell) : Expression → Option Int
  | .leaf cond => executeCond cond row
  | .node cond left right =>
    match cond.type with
    | .logicAnd =>
      (left.execute row).bind fun l =>
        if l = 1 then (right.execute row).map fun r => if r = 1 then 1 else 0 else some 0
    | .logicOr =>
      (left.execute row).bind fun l =>
        if l = 1 then some 1 else (right.execute row).map fun r => if r = 1 then 1 else 0
    | _ => some (-1)

def addExpField (fields : List FieldSelect) (cond : FilterCondition) : List FieldSelect :=
  if fields.any fun f => f.name = cond.fieldName then fields
  else
    fields ++ [⟨cond.fieldName, if comparesHashes cond.comparator then .hash else .original⟩]

/-- One round of the loop of `GenExp`. -/
def genExpStep (s : List Expression × List FieldSelect) (cond : FilterCondition) :
    Option (List Expression × List FieldSelect) :=
  let operator :=
    match s.1 with
    | left :: right :: stack => some (.node cond left right :: stack, s.2)
    | _ => none
  match cond.type with
  | .logicAnd => operator
  | .logicOr => operator
  | .conditionExp => some (.leaf cond :: s.1, addExpField s.2 cond)
  | _ => some (.leaf cond :: s.1, s.2)

/-- `Expression::GenExp`: the expression with its `exp_fields`. -/
def genExp (conds : List FilterCondition) : Option (Expression × List FieldSelect) :=
  match conds.foldlM genExpStep ([], []) with
  | some (exp :: _, fields) => some (exp, fields)
  | _ => none

/-- The values of a condition that `GenExp` hashes. -/
def FilterCondition.hashed (cond : FilterCondition) : List LowData :=
  if cond.type = .conditionExp ∧ comparesHashes cond.comparator = true then cond.values else []

/-- The values that the loop hashes, up to the operator it fails at. -/
def hashedValues : List Expression × List FieldSelect → List FilterCondition → List LowData
  | _, [] => []
  | s, cond :: conds =>
    cond.hashed ++
      match genExpStep s cond with
      | some s' => hashedValues s' conds
      | none => []

/-- A call of `GenExp`: it does not come back from a value that does not fit
`to_hash`. -/
def genExpCall (conds : List FilterCondition) : Option (Option (Expression × List FieldSelect)) :=
  if ∀ v ∈ hashedValues ([], []) conds, HashFits v then some (genExp conds) else none

/-! ## §4. Suffix expressions. -/

def itemCond : Item FilterCondition FilterCondition → FilterCondition
  | .operand cond => cond
  | .operator cond => cond

def FilterKinds : BinTree FilterCondition FilterCondition → Prop
  | .leaf cond => cond.type = .conditionExp
  | .node cond l r =>
    (cond.type = .logicAnd ∨ cond.type = .logicOr) ∧ FilterKinds l ∧ FilterKinds r

/-- The array of conditions that spells an expression. -/
structure SpellsFilter (conds : List FilterCondition)
    (t : BinTree FilterCondition FilterCondition) : Prop where
  kinds : FilterKinds t
  items : conds = t.items.map itemCond

/-- The tree that `GenExp` makes: the left operand is the one on top. -/
def treeExp : BinTree FilterCondition FilterCondition → Expression
  | .leaf cond => .leaf cond
  | .node cond l r => .node cond (treeExp r) (treeExp l)

/-- The `exp_fields` of some comparisons. -/
def expFields (conds : List FilterCondition) : List FieldSelect := conds.foldl addExpField []

variable {t : BinTree FilterCondition FilterCondition}

/-- A postfix expression leaves its tree on the stack. -/
theorem foldlM_items (ht : FilterKinds t) (rest : List FilterCondition) (stack : List Expression)
    (fields : List FieldSelect) :
    (t.items.map itemCond ++ rest).foldlM genExpStep (stack, fields) =
      rest.foldlM genExpStep (treeExp t :: stack, t.leaves.foldl addExpField fields) := by
  induction t generalizing rest stack fields with
  | leaf cond =>
    have hstep : genExpStep (stack, fields) cond =
        some (.leaf cond :: stack, addExpField fields cond) := by
      simp only [genExpStep, show cond.type = .conditionExp from ht]
    simp only [BinTree.items, map_cons, map_nil, cons_append, nil_append,
      foldlM_cons, itemCond, hstep]
    rfl
  | node cond l r ihl ihr =>
    obtain ⟨hcond, hl, hr⟩ := ht
    have hstep : ∀ fields, genExpStep (treeExp r :: treeExp l :: stack, fields) cond =
        some (treeExp (.node cond l r) :: stack, fields) := by
      intro fields
      rcases hcond with hcond | hcond <;> simp only [genExpStep, hcond, treeExp]
    simp only [BinTree.items, map_append, append_assoc]
    rw [ihl hl, ihr hr]
    simp only [map_cons, map_nil, cons_append, nil_append,
      foldlM_cons, itemCond, hstep, BinTree.leaves, foldl_append]
    rfl

variable {conds : List FilterCondition}

/-- **`GenExp` reads a suffix expression**: it makes the tree, and lists the
fields of the comparisons. -/
theorem genExp_items (h : SpellsFilter conds t) :
    genExp conds = some (treeExp t, expFields t.leaves) := by
  have hfold := foldlM_items h.kinds [] [] []
  rw [append_nil, ← h.items] at hfold
  rw [genExp, hfold]
  rfl

/-! ## §5. IN and equality. -/

def columnIs (name : Bytes) (comparator : CompareType) (values : List LowData) : Expression :=
  .leaf ⟨.conditionExp, name, comparator, values⟩

def SelectCell.compare (cell : SelectCell) (v : LowData) : Int :=
  compareLd cell.data (if cell.selectType = .hash then hashValue v else v)

section In

variable {row : List SelectCell} {name : Bytes} {values : List LowData} {cell : SelectCell}

theorem compareIn_map (value : LowData) (f : LowData → LowData) :
    compareIn value (values.map f) = 1 → ∃ v ∈ values, compareLd value (f v) = 0 := by
  induction values with
  | nil => intro h; cases h
  | cons v vs ih =>
    intro h
    simp only [map_cons, compareIn] at h
    split_ifs at h with hapart hequal
    · cases h
    · exact ⟨v, mem_cons_self, hequal⟩
    · obtain ⟨w, hw, heq⟩ := ih h
      exact ⟨w, mem_cons_of_mem _ hw, heq⟩

theorem compareIn_comparable {value : LowData} {f : LowData → LowData}
    (hall : ∀ v ∈ values, compareLd value (f v) ≠ -2)
    (h : ∃ v ∈ values, compareLd value (f v) = 0) : compareIn value (values.map f) = 1 := by
  induction values with
  | nil =>
    obtain ⟨v, hv, -⟩ := h
    exact absurd hv not_mem_nil
  | cons v vs ih =>
    obtain ⟨hhead, htail⟩ := forall_mem_cons.mp hall
    simp only [map_cons, compareIn, if_neg hhead]
    by_cases hequal : compareLd value (f v) = 0
    · rw [if_pos hequal]
    · rw [if_neg hequal]
      obtain ⟨w, hw, heq⟩ := h
      refine ih htail ⟨w, (mem_cons.mp hw).resolve_left ?_, heq⟩
      rintro rfl
      exact hequal heq

theorem execute_in (hcell : row.find? (fun cell => name = cell.data.fieldName) = some cell) :
    (columnIs name .in values).execute row = some (compareIn cell.data
      (values.map fun v => if cell.selectType = .hash then hashValue v else v)) := by
  simp only [columnIs, Expression.execute, executeCond, hcell, compareValue]
  by_cases hhash : cell.selectType = .hash <;>
    simp [hhash, FilterCondition.hashValues, comparesHashes]

theorem execute_eq (hcell : row.find? (fun cell => name = cell.data.fieldName) = some cell)
    (v : LowData) :
    (columnIs name .eq [v]).execute row = some 1 ↔ SelectCell.compare cell v = 0 := by
  simp only [columnIs, Expression.execute, executeCond, hcell, compareValue, compareOne,
    SelectCell.compare]
  by_cases hhash : cell.selectType = .hash
  · by_cases hequal : compareLd cell.data (hashValue v) = 0 <;>
      simp [hhash, hequal, FilterCondition.hashValues, comparesHashes, compareAt]
  · by_cases hequal : compareLd cell.data v = 0 <;> simp [hhash, hequal, compareAt]

/-- A column that is equal to a value of the list is comparable with all of them. -/
def InClear (row : List SelectCell) (name : Bytes) (values : List LowData) : Prop :=
  ∀ cell, row.find? (fun cell => name = cell.data.fieldName) = some cell →
    (∃ v ∈ values, SelectCell.compare cell v = 0) → ∀ v ∈ values, SelectCell.compare cell v ≠ -2

/-- **When IN is a disjunction of equalities**, in any order of its values: if a column
that is equal to one of them is comparable with all. -/
theorem in_iff_some_eq (row : List SelectCell) (name : Bytes) (values : List LowData) :
    (∀ values', values'.Perm values →
        ((columnIs name .in values').execute row = some 1 ↔
          ∃ v ∈ values, (columnIs name .eq [v]).execute row = some 1)) ↔
      InClear row name values := by
  cases hcell : row.find? fun cell => name = cell.data.fieldName with
  | none =>
    -- without the column every comparison is -1
    have hnone : ∀ comparator vs, (columnIs name comparator vs).execute row ≠ some 1 := by
      intro comparator vs
      simp [columnIs, Expression.execute, executeCond, hcell]
    simp [InClear, hcell, hnone]
  | some cell =>
    simp only [execute_in hcell, execute_eq hcell, InClear, hcell, Option.some.injEq,
      forall_eq']
    constructor
    · intro hsame hequal v hv hapart
      -- a value that is not comparable, put in front, ends the loop
      have hfront := (hsame (v :: values.erase v) (perm_cons_erase hv).symm).mpr hequal
      simp only [map_cons, compareIn] at hfront
      exact absurd ((if_pos hapart).symm.trans hfront) (by decide)
    · intro hclear values' hperm
      have hmem : (∃ v ∈ values', SelectCell.compare cell v = 0) ↔
          ∃ v ∈ values, SelectCell.compare cell v = 0 := by
        simp only [hperm.mem_iff]
      rw [← hmem]
      constructor
      · exact compareIn_map cell.data _
      · intro hequal
        exact compareIn_comparable
          (fun v hv => hclear (hmem.mp hequal) v (hperm.mem_iff.mp hv)) hequal

end In

theorem in_stops_at_other_type :
    (columnIs [97] .in [⟨[], .short, [5, 0]⟩, ⟨[], .tiny, [5]⟩]).execute
        [⟨⟨[97], .tiny, [5]⟩, .original⟩] = some 0 ∧
    (columnIs [97] .in [⟨[], .tiny, [5]⟩, ⟨[], .short, [5, 0]⟩]).execute
        [⟨⟨[97], .tiny, [5]⟩, .original⟩] = some 1 ∧
    (columnIs [97] .eq [⟨[], .tiny, [5]⟩]).execute [⟨⟨[97], .tiny, [5]⟩, .original⟩] = some 1 := by
  decide

/-! ## §6. Which arrays `GenExp` accepts. -/

def FilterCondition.isOperator (cond : FilterCondition) : Bool :=
  cond.type = .logicAnd || cond.type = .logicOr

def operatorCount (conds : List FilterCondition) : Nat := conds.countP FilterCondition.isOperator

def operandCount (conds : List FilterCondition) : Nat := conds.countP fun c => !c.isOperator

def Underflows (conds : List FilterCondition) : Prop :=
  ∃ pre cond post, conds = pre ++ cond :: post ∧ cond.isOperator = true ∧
    operandCount pre ≤ operatorCount pre + 1

def holds (row : List SelectCell) : BinTree FilterCondition FilterCondition → Bool
  | .leaf cond => executeCond cond row = some 1
  | .node cond l r =>
    if cond.type = .logicAnd then holds row l && holds row r else holds row l || holds row r

section Accept

variable {conds : List FilterCondition} {cond : FilterCondition} {stack : List Expression}
  {fields : List FieldSelect} {t : BinTree FilterCondition FilterCondition}

theorem count_total (conds : List FilterCondition) :
    operandCount conds + operatorCount conds = conds.length := by
  rw [operandCount, operatorCount, Nat.add_comm,
    length_eq_countP_add_countP FilterCondition.isOperator]
  simp

theorem addExpField_length : (addExpField fields cond).length ≤ fields.length + 1 := by
  unfold addExpField
  split_ifs <;> simp

/-- One condition of the scan. -/
theorem genExpStep_cases (stack : List Expression) (fields : List FieldSelect)
    (cond : FilterCondition) :
    (cond.isOperator = false ∧ ∃ fields', genExpStep (stack, fields) cond =
        some (.leaf cond :: stack, fields') ∧ fields'.length ≤ fields.length + 1) ∨
    (cond.isOperator = true ∧ stack.length < 2 ∧ genExpStep (stack, fields) cond = none) ∨
    (cond.isOperator = true ∧ ∃ left right rest, stack = left :: right :: rest ∧
      genExpStep (stack, fields) cond = some (.node cond left right :: rest, fields)) := by
  unfold FilterCondition.isOperator genExpStep
  cases cond.type with
  | logicAnd | logicOr =>
    right
    match stack with
    | [] => exact .inl ⟨rfl, by simp, rfl⟩
    | [e] => exact .inl ⟨rfl, by simp, rfl⟩
    | left :: right :: rest => exact .inr ⟨rfl, left, right, rest, rfl, rfl⟩
  | conditionExp => exact .inl ⟨rfl, _, rfl, addExpField_length⟩
  | setMinus | unionHashExp => exact .inl ⟨rfl, _, rfl, Nat.le_succ _⟩

/-- **The stack of a scan** that has not failed: every operand has pushed one value, and
every operator taken one away. -/
theorem foldlM_genExp (conds : List FilterCondition) :
    (Underflows conds ∧ conds.foldlM genExpStep ([], []) = none) ∨
    (¬Underflows conds ∧ ∃ stack fields, conds.foldlM genExpStep ([], []) = some (stack, fields) ∧
      stack.length + operatorCount conds = operandCount conds ∧
      (conds ≠ [] → stack ≠ []) ∧ fields.length ≤ operandCount conds) := by
  induction conds using reverseRecOn with
  | nil =>
    refine .inr ⟨?_, [], [], rfl, rfl, fun h => absurd rfl h, le_rfl⟩
    rintro ⟨pre, cond, post, h, -⟩
    simp at h
  | append_singleton conds cond ih =>
    -- an underflow stands before the last condition, or is it
    have hunder : Underflows (conds ++ [cond]) ↔ Underflows conds ∨
        cond.isOperator = true ∧ operandCount conds ≤ operatorCount conds + 1 := by
      constructor
      · rintro ⟨pre, c, post, heq, hop, hle⟩
        rcases eq_nil_or_concat post with rfl | ⟨post, last, rfl⟩
        · obtain ⟨rfl, hlast⟩ := append_inj' heq rfl
          obtain rfl : cond = c := by simpa using hlast
          exact .inr ⟨hop, hle⟩
        · rw [concat_eq_append, ← cons_append, ← append_assoc] at heq
          exact .inl ⟨pre, c, post, (append_inj' heq rfl).1, hop, hle⟩
      · rintro (⟨pre, c, post, rfl, hop, hle⟩ | ⟨hop, hle⟩)
        · exact ⟨pre, c, post ++ [cond], by simp, hop, hle⟩
        · exact ⟨conds, cond, [], rfl, hop, hle⟩
    have hcount : operatorCount (conds ++ [cond]) =
          operatorCount conds + (if cond.isOperator then 1 else 0) ∧
        operandCount (conds ++ [cond]) =
          operandCount conds + (if cond.isOperator then 0 else 1) := by
      unfold operatorCount operandCount
      cases hop : cond.isOperator <;> simp [hop]
    rw [hunder, hcount.1, hcount.2, foldlM_append]
    rcases ih with ⟨hu, hfold⟩ | ⟨hu, stack, fields, hfold, hlen, -, hfields⟩
    · exact .inl ⟨.inl hu, by rw [hfold]; rfl⟩
    rw [hfold]
    simp only [foldlM_cons, foldlM_nil, Option.bind_eq_bind, Option.bind_some]
    rcases genExpStep_cases stack fields cond with
      ⟨hop, fields', hstep, hle⟩ | ⟨hop, hshort, hstep⟩ | ⟨hop, left, right, rest, rfl, hstep⟩
    · refine .inr ⟨by simp [hu, hop], _, _, by rw [hstep]; rfl, ?_, fun _ => cons_ne_nil _ _, ?_⟩
      · simp only [hop, length_cons, Bool.false_eq_true, if_false]
        omega
      · simp only [hop, Bool.false_eq_true, if_false]
        omega
    · exact .inl ⟨.inr ⟨hop, by omega⟩, by rw [hstep]; rfl⟩
    · simp only [length_cons] at hlen
      refine .inr ⟨?_, _, _, by rw [hstep]; rfl, ?_, fun _ => cons_ne_nil _ _, ?_⟩
      · rintro (h | ⟨-, h⟩)
        · exact hu h
        · omega
      · simp only [hop, length_cons, if_true]
        omega
      · simpa [hop] using hfields

theorem scanned_iff (pre : List FilterCondition) :
    (∃ s, pre.foldlM genExpStep ([], []) = some s) ↔ ¬Underflows pre := by
  rcases foldlM_genExp pre with ⟨hu, hnone⟩ | ⟨hu, stack, fields, hsome, -⟩
  · simp [hu, hnone]
  · simp [hu, hsome]

/-- The values that are hashed before an operator fails. -/
theorem mem_hashedValues {v : LowData} (conds pre : List FilterCondition)
    {s : List Expression × List FieldSelect} (hs : pre.foldlM genExpStep ([], []) = some s) :
    v ∈ hashedValues s conds ↔ ∃ front cond back, conds = front ++ cond :: back ∧
      ¬Underflows (pre ++ front) ∧ v ∈ cond.hashed := by
  induction conds generalizing pre s with
  | nil => simp [hashedValues]
  | cons cond conds ih =>
    have hnext : (pre ++ [cond]).foldlM genExpStep ([], []) = genExpStep s cond := by
      simp [foldlM_append, hs]
    have hfirst : ¬Underflows pre := (scanned_iff pre).mp ⟨s, hs⟩
    -- what is hashed behind the first condition
    have hlater : v ∈ (match genExpStep s cond with
          | some s' => hashedValues s' conds
          | none => []) ↔ ∃ front c back, conds = front ++ c :: back ∧
            ¬Underflows (pre ++ cond :: front) ∧ v ∈ c.hashed := by
      cases hstep : genExpStep s cond with
      | some s' => simpa using ih (pre ++ [cond]) (hnext.trans hstep)
      | none =>
        have hunder : Underflows (pre ++ [cond]) := by
          by_contra hnot
          obtain ⟨s', hs'⟩ := (scanned_iff _).mpr hnot
          rw [hnext, hstep] at hs'
          cases hs'
        obtain ⟨a, c, b, heq, hop, hle⟩ := hunder
        constructor
        · exact fun h => absurd h not_mem_nil
        · rintro ⟨front, _, _, -, hnot, -⟩
          refine absurd ⟨a, c, b ++ front, ?_, hop, hle⟩ hnot
          rw [append_cons, heq, append_assoc, cons_append]
    rw [hashedValues, mem_append, hlater]
    constructor
    · rintro (hv | ⟨front, c, back, rfl, hnot, hv⟩)
      · exact ⟨[], cond, conds, rfl, by rwa [append_nil], hv⟩
      · exact ⟨cond :: front, c, back, rfl, hnot, hv⟩
    · rintro ⟨_ | ⟨c', front⟩, c, back, heq, hnot, hv⟩
      · obtain ⟨rfl, rfl⟩ := cons.inj heq
        exact .inl hv
      · obtain ⟨rfl, rfl⟩ := cons.inj heq
        exact .inr ⟨front, c, back, rfl, hnot, hv⟩

/-- Every value that is hashed before an operator fails fits `to_hash`. -/
def ValuesFit (conds : List FilterCondition) : Prop :=
  ∀ pre cond post, conds = pre ++ cond :: post → ¬Underflows pre →
    ∀ v ∈ cond.hashed, HashFits v

theorem valuesFit_iff : (∀ v ∈ hashedValues ([], []) conds, HashFits v) ↔ ValuesFit conds := by
  simp only [mem_hashedValues (s := ([], [])) conds [] rfl, nil_append, ValuesFit]
  constructor
  · intro h pre cond post heq hnot v hv
    exact h v ⟨pre, cond, post, heq, hnot, hv⟩
  · rintro h v ⟨pre, cond, post, heq, hnot, hv⟩
    exact h pre cond post heq hnot v hv

theorem counts_of_spells (h : FilterKinds t) :
    operandCount (t.items.map itemCond) = operatorCount (t.items.map itemCond) + 1 := by
  induction t with
  | leaf cond =>
    have hkind : cond.type = .conditionExp := h
    simp [operandCount, operatorCount, BinTree.items, itemCond, FilterCondition.isOperator, hkind]
  | node cond l r ihl ihr =>
    obtain ⟨hkind, hl, hr⟩ := h
    have hop : cond.isOperator = true := by
      rcases hkind with hkind | hkind <;> simp [FilterCondition.isOperator, hkind]
    have hl := ihl hl
    have hr := ihr hr
    simp only [operandCount, operatorCount, BinTree.items, map_append, map_cons, map_nil,
      countP_append, itemCond, countP_singleton, hop] at hl hr ⊢
    simp only [Bool.not_true, Bool.false_eq_true, if_false, if_true]
    omega

/-- **The value of the tree that `GenExp` makes**, if its comparisons have one. -/
theorem execute_treeExp {row : List SelectCell} (h : FilterKinds t)
    (hleaves : ∀ c ∈ t.leaves, executeCond c row ≠ none) :
    ∃ ret, (treeExp t).execute row = some ret ∧ (ret = 1 ↔ holds row t = true) := by
  induction t with
  | leaf cond =>
    obtain ⟨ret, hret⟩ := Option.ne_none_iff_exists'.mp (hleaves cond (mem_singleton.mpr rfl))
    exact ⟨ret, hret, by simp [holds, hret]⟩
  | node cond l r ihl ihr =>
    obtain ⟨hkind, hl, hr⟩ := h
    obtain ⟨a, ha, hiffa⟩ := ihl hl fun c hc => hleaves c (mem_append_left _ hc)
    obtain ⟨b, hb, hiffb⟩ := ihr hr fun c hc => hleaves c (mem_append_right _ hc)
    rcases hkind with hkind | hkind <;>
      simp only [treeExp, Expression.execute, hkind, ha, hb, holds, Option.bind_some,
        Option.map_some, reduceCtorEq, if_true, if_false] <;>
      by_cases h1 : a = 1 <;> by_cases h2 : b = 1 <;> simp_all

def Acceptable (conds : List FilterCondition) : Prop :=
  conds = [] ∨ Underflows conds ∨ ∃ t, SpellsFilter conds t

/-- The field array is large enough. -/
theorem operandCount_le {pre post : List FilterCondition} (hpre : ¬Underflows pre)
    (h : Acceptable (pre ++ post)) :
    operandCount pre ≤ (pre ++ post).length / 2 + 1 := by
  have hmono : ∀ {l m : List FilterCondition}, l <+: m → operandCount l ≤ operandCount m :=
    fun hl => hl.sublist.countP_le
  rcases h with hnil | ⟨scanned, cond, rest, heq, hop, hle⟩ | ⟨t, hkinds, hitems⟩
  · rw [append_eq_nil_iff.mp hnil |>.1]
    exact Nat.zero_le _
  · -- the scan has not come to the operator that fails
    have hfront : scanned ++ [cond] <+: pre ++ post := ⟨rest, by rw [heq]; simp⟩
    have hlen : pre.length ≤ scanned.length := by
      by_contra hlong
      have hin : scanned ++ [cond] <+: pre := by
        refine prefix_of_prefix_length_le hfront (prefix_append _ _) ?_
        simp only [length_append, length_singleton]
        omega
      obtain ⟨more, hmore⟩ := hin
      exact hpre ⟨scanned, cond, more, by rw [← hmore]; simp, hop, hle⟩
    have hscan : pre <+: scanned :=
      prefix_of_prefix_length_le (prefix_append _ _) ((prefix_append _ _).trans hfront) hlen
    have htotal := count_total scanned
    have hpart := hmono hscan
    rw [heq, length_append, length_cons]
    omega
  · have hcounts := counts_of_spells hkinds
    rw [← hitems] at hcounts
    have htotal := count_total (pre ++ post)
    have hpart := hmono (prefix_append pre post)
    omega

/-- What `GenExp` makes of an array it comes back from is right, if the array is acceptable. -/
theorem genExp_right_iff (conds : List FilterCondition) :
    (((∃ e, genExp conds = some e) ↔ ∃ t, SpellsFilter conds t) ∧
      (∀ pre s, pre <+: conds → pre.foldlM genExpStep ([], []) = some s →
        s.2.length ≤ conds.length / 2 + 1) ∧
      ∀ t e fields row, SpellsFilter conds t → genExp conds = some (e, fields) →
        (∀ c ∈ t.leaves, executeCond c row ≠ none) →
        ∃ ret, e.execute row = some ret ∧ (ret = 1 ↔ holds row t = true)) ↔
      Acceptable conds := by
  have hspelled : ∀ t, SpellsFilter conds t → genExp conds = some (treeExp t, expFields t.leaves) :=
    fun t ht => genExp_items ht
  constructor
  · rintro ⟨haccept, -⟩
    by_contra hnot
    simp only [Acceptable, not_or] at hnot
    obtain ⟨hne, hunder, hspell⟩ := hnot
    rcases foldlM_genExp conds with ⟨hu, -⟩ | ⟨-, stack, fields, hfold, -, hstack, -⟩
    · exact hunder hu
    · obtain ⟨e, rest, rfl⟩ := exists_cons_of_ne_nil (hstack hne)
      exact hspell (haccept.mp ⟨(e, fields), by rw [genExp, hfold]⟩)
  · intro hok
    refine ⟨⟨?_, fun ⟨t, ht⟩ => ⟨_, hspelled t ht⟩⟩, ?_, ?_⟩
    · rintro ⟨e, he⟩
      rcases hok with rfl | hu | hspell
      · cases he
      · rcases foldlM_genExp conds with ⟨-, hfold⟩ | ⟨hnot, -⟩
        · rw [genExp, hfold] at he
          cases he
        · exact absurd hu hnot
      · exact hspell
    · rintro pre s ⟨post, rfl⟩ hs
      rcases foldlM_genExp pre with ⟨-, hfold⟩ | ⟨hpre, stack, fields, hfold, hlen, -, hfields⟩
      · rw [hfold] at hs
        cases hs
      obtain rfl := Option.some.inj (hfold.symm.trans hs)
      exact hfields.trans (operandCount_le hpre hok)
    · intro t e fields row ht he hleaves
      obtain ⟨rfl, -⟩ := Prod.mk.inj (Option.some.inj ((hspelled t ht).symm.trans he))
      exact execute_treeExp ht.kinds hleaves

/-- **When filter conditions are read right.**  `GenExp` comes back, takes an array exactly if
it is a suffix expression, lists no more fields than its array has room for, and makes an
expression with the value of the suffix expression — for the arrays that are one, that are
empty, or that have an operator without its operands, if the values to be hashed fit.  An
array that leaves more than one value on the stack is taken too. -/
theorem genExp_accepts (conds : List FilterCondition) :
    ((∃ res, genExpCall conds = some res) ∧
      ((∃ e, genExpCall conds = some (some e)) ↔ ∃ t, SpellsFilter conds t) ∧
      (∀ pre s, pre <+: conds → pre.foldlM genExpStep ([], []) = some s →
        s.2.length ≤ conds.length / 2 + 1) ∧
      ∀ t e fields row, SpellsFilter conds t → genExpCall conds = some (some (e, fields)) →
        (∀ c ∈ t.leaves, executeCond c row ≠ none) →
        ∃ ret, e.execute row = some ret ∧ (ret = 1 ↔ holds row t = true)) ↔
      Acceptable conds ∧ ValuesFit conds := by
  by_cases hfit : ValuesFit conds
  · have hcall : genExpCall conds = some (genExp conds) := if_pos (valuesFit_iff.mpr hfit)
    simp only [hcall, Option.some.injEq, exists_eq', true_and, hfit, and_true]
    exact genExp_right_iff conds
  · have hcall : genExpCall conds = none := if_neg (mt valuesFit_iff.mp hfit)
    simp [hcall, hfit]

end Accept

theorem leftover_conditions_accepted :
    genExpCall [⟨.conditionExp, [97], .eq, []⟩, ⟨.conditionExp, [98], .eq, []⟩,
        ⟨.conditionExp, [99], .eq, []⟩] =
      some (some (.leaf ⟨.conditionExp, [99], .eq, []⟩,
        [⟨[97], .hash⟩, ⟨[98], .hash⟩, ⟨[99], .hash⟩])) ∧
    ¬3 ≤ 3 / 2 + 1 :=
  ⟨rfl, by decide⟩

end Mile.Execute
