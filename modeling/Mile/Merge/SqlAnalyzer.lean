/-
  Mile.Merge.SqlAnalyzer
  ──────────────────────
  **REWRITING A QUERY** (`plan/SqlAnalyzer.java`).

  Aliases are replaced by the fields they stand for, and the columns that later steps need are
  appended to the select list: those of HAVING, of GROUP BY and of ORDER BY.
-/
import Mile.Merge.Query

namespace Mile.Merge

open Common List

/-! ## §1. `rewrite`. -/

def addField (fields : List FieldDesc) (field : FieldDesc) : List FieldDesc :=
  if field.isIn fields then fields else fields ++ [field]

/-- The map of the aliases; of two fields with one alias the last is taken. -/
def aliseMap (fields : List FieldDesc) (name : String) : Option FieldDesc :=
  fields.reverse.find? fun field =>
    field.aliseName = name && field.aliseName ≠ field.fieldName

namespace Expression

/-- `rewrite` of a condition. -/
def rewrite (map : String → Option FieldDesc) : Expression → Expression
  | .operator op left right => .operator op (left.rewrite map) (right.rewrite map)
  | .column field comparetor values =>
    .column ((map field.fieldName).getD field) comparetor values
  | .other => .other

/-- `rewriteHaving`: the columns are added to the select list. -/
def rewriteHaving (map : String → Option FieldDesc) :
    Expression → List FieldDesc → Expression × List FieldDesc
  | .operator op left right, selectFields =>
    let (left, selectFields) := left.rewriteHaving map selectFields
    let (right, selectFields) := right.rewriteHaving map selectFields
    (.operator op left right, selectFields)
  | .column field comparetor values, selectFields =>
    match map field.fieldName with
    | some fieldDesc => (.column fieldDesc comparetor values, selectFields)
    | none => (.column field comparetor values, addField selectFields field)
  | .other, selectFields => (.other, selectFields)

/-- `isFulltextSearch`. -/
def isFulltextSearch : Expression → Bool
  | .operator _ left right => left.isFulltextSearch || right.isFulltextSearch
  | .column _ comparetor _ => comparetor = .match
  | .other => false

end Expression

def rewriteGroup (map : String → Option FieldDesc) :
    List FieldDesc → List FieldDesc → List FieldDesc × List FieldDesc
  | [], selectFields => ([], selectFields)
  | field :: fields, selectFields =>
    match map field.fieldName with
    | some fieldDesc =>
      let (fields, selectFields) := rewriteGroup map fields selectFields
      (fieldDesc :: fields, selectFields)
    | none =>
      let (fields, selectFields) :=
        rewriteGroup map fields (addField selectFields field.withAlise)
      (field.withAlise :: fields, selectFields)

def rewriteOrder (map : String → Option FieldDesc) :
    List OrderDesc → List FieldDesc → List OrderDesc × List FieldDesc
  | [], selectFields => ([], selectFields)
  | order :: orders, selectFields =>
    match map order.field.fieldName with
    | some fieldDesc =>
      let (orders, selectFields) := rewriteOrder map orders selectFields
      ({ order with field := fieldDesc } :: orders, selectFields)
    | none =>
      let (orders, selectFields) :=
        rewriteOrder map orders (addField selectFields order.field.withAlise)
      ({ order with field := order.field.withAlise } :: orders, selectFields)

def matchScore : OrderDesc := ⟨{ fieldName := "matchscore", aliseName := "matchscore" }, .desc⟩

namespace QueryStatement

variable (stmt : QueryStatement)

def aliased : List FieldDesc := stmt.selectFields.map FieldDesc.withAlise

def orderDescs : List OrderDesc :=
  if stmt.hashWhere.any fun e => (e.rewrite (aliseMap stmt.aliased)).isFulltextSearch then
    stmt.orderFields ++ [matchScore]
  else stmt.orderFields

/-- `rewrite` of a query. -/
def rewrite : QueryStatement :=
  let map := aliseMap stmt.aliased
  let selectFields := stmt.aliased.foldl addField []
  let (having, selectFields) := match stmt.having with
    | none => (none, selectFields)
    | some e =>
      let (e, selectFields) := e.rewriteHaving map selectFields
      (some e, selectFields)
  let (groupByFields, selectFields) := rewriteGroup map stmt.groupByFields selectFields
  let (orderFields, selectFields) := rewriteOrder map stmt.orderDescs selectFields
  { stmt with
    hashWhere := stmt.hashWhere.map (Expression.rewrite map)
    filterWhere := stmt.filterWhere.map (Expression.rewrite map)
    having := having
    groupByFields := groupByFields
    orderFields := orderFields
    selectFields := selectFields.map FieldDesc.withAlise }

end QueryStatement

/-! ## §2. The fields of a rewritten query. -/

section Fields

variable {map : String → Option FieldDesc} {fields selectFields : List FieldDesc}
  {field : FieldDesc} {k : Option Nat × String}

theorem mem_addField_key :
    k ∈ (addField fields field).map FieldDesc.key ↔
      k ∈ fields.map FieldDesc.key ∨ k = field.key := by
  unfold addField
  split_ifs with h
  · have hin := (FieldDesc.isIn_iff fields field).mp h
    refine ⟨.inl, ?_⟩
    rintro (hk | rfl)
    · exact hk
    · exact hin
  · simp

variable {f : FieldDesc}

theorem mem_addField (h : f ∈ addField fields field) : f ∈ fields ∨ f = field := by
  unfold addField at h
  split_ifs at h
  · exact .inl h
  · simpa using h

theorem mem_foldl_addField_key (l : List FieldDesc) :
    k ∈ (l.foldl addField fields).map FieldDesc.key ↔
      k ∈ fields.map FieldDesc.key ∨ k ∈ l.map FieldDesc.key := by
  induction l generalizing fields with
  | nil => simp
  | cons field l ih =>
    rw [foldl_cons, ih, mem_addField_key, map_cons, mem_cons, or_assoc]

theorem mem_foldl_addField {l : List FieldDesc} (h : f ∈ l.foldl addField fields) :
    f ∈ fields ∨ f ∈ l := by
  induction l generalizing fields with
  | nil => exact .inl h
  | cons field l ih =>
    rcases ih h with hin | hin
    · rcases mem_addField hin with hin | rfl
      · exact .inl hin
      · exact .inr (by simp)
    · exact .inr (mem_cons_of_mem _ hin)

def orderField (map : String → Option FieldDesc) (field : FieldDesc) : FieldDesc :=
  (map field.fieldName).getD field.withAlise

theorem rewriteOrder_fst (orders : List OrderDesc) (selectFields : List FieldDesc) :
    (rewriteOrder map orders selectFields).1 =
      orders.map fun order => { order with field := orderField map order.field } := by
  induction orders generalizing selectFields with
  | nil => rfl
  | cons order orders ih =>
    rw [rewriteOrder]
    cases hmap : map order.field.fieldName <;> simp [orderField, hmap, ih]

/-- The columns that are asked for. -/
theorem mem_rewriteOrder_key (orders : List OrderDesc)
    (hmap : ∀ name f, map name = some f → f.key ∈ selectFields.map FieldDesc.key) :
    k ∈ (rewriteOrder map orders selectFields).2.map FieldDesc.key ↔
      k ∈ selectFields.map FieldDesc.key ∨
        ∃ order ∈ orders, k = (orderField map order.field).key := by
  induction orders generalizing selectFields with
  | nil => simp [rewriteOrder]
  | cons order orders ih =>
    rw [rewriteOrder]
    cases hname : map order.field.fieldName with
    | some fieldDesc =>
      simp only [mem_cons, exists_eq_or_imp, orderField, hname, Option.getD_some]
      rw [ih hmap]
      -- the field an alias stands for is selected
      have hin := hmap _ _ hname
      constructor
      · rintro (hk | hk)
        · exact .inl hk
        · exact .inr (.inr hk)
      · rintro (hk | rfl | hk)
        · exact .inl hk
        · exact .inl hin
        · exact .inr hk
    | none =>
      simp only [mem_cons, exists_eq_or_imp, orderField, hname, Option.getD_none]
      rw [ih fun name f hf => mem_addField_key.mpr (.inl (hmap name f hf)), mem_addField_key,
        or_assoc]
      rfl

theorem mem_rewriteOrder {orders : List OrderDesc}
    (h : f ∈ (rewriteOrder map orders selectFields).2) :
    f ∈ selectFields ∨ ∃ order ∈ orders, f = order.field.withAlise := by
  induction orders generalizing selectFields with
  | nil => exact .inl h
  | cons order orders ih =>
    rw [rewriteOrder] at h
    cases hname : map order.field.fieldName with
    | some fieldDesc =>
      simp only [hname] at h
      rcases ih h with hin | ⟨o, ho, rfl⟩
      · exact .inl hin
      · exact .inr ⟨o, mem_cons_of_mem _ ho, rfl⟩
    | none =>
      simp only [hname] at h
      rcases ih h with hin | ⟨o, ho, rfl⟩
      · rcases mem_addField hin with hin | rfl
        · exact .inl hin
        · exact .inr ⟨order, by simp, rfl⟩
      · exact .inr ⟨o, mem_cons_of_mem _ ho, rfl⟩

end Fields

/-! ## §3. Queries of plain columns. -/

namespace QueryStatement

/-- A query without functions, GROUP BY and HAVING. -/
structure PlainColumns (stmt : QueryStatement) : Prop where
  select : ∀ field ∈ stmt.selectFields, field.Plain
  order : ∀ order ∈ stmt.orderFields, order.field.Plain
  noGroup : stmt.groupByFields = []
  noHaving : stmt.having = none

variable {stmt : QueryStatement}

def orderColumns (stmt : QueryStatement) : List String :=
  stmt.orderDescs.map fun order => (orderField (aliseMap stmt.aliased) order.field).fieldName

def selectColumns (stmt : QueryStatement) : List String := stmt.selectFields.map FieldDesc.fieldName

theorem mem_aliased {field : FieldDesc} (h : field ∈ stmt.aliased) :
    ∃ f ∈ stmt.selectFields, f.withAlise = field := mem_map.mp h

theorem aliseMap_mem {fields : List FieldDesc} {name : String} {field : FieldDesc}
    (h : aliseMap fields name = some field) : field ∈ fields :=
  mem_reverse.mp (mem_of_find?_eq_some h)

theorem orderDescs_plain (h : stmt.PlainColumns) :
    ∀ order ∈ stmt.orderDescs, order.field.Plain := by
  intro order horder
  unfold orderDescs at horder
  split_ifs at horder
  · rcases mem_append.mp horder with hin | hin
    · exact h.order order hin
    · rw [mem_singleton.mp hin]
      exact ⟨by decide, rfl⟩
  · exact h.order order horder

theorem orderField_plain (h : stmt.PlainColumns) :
    ∀ order ∈ stmt.orderDescs, (orderField (aliseMap stmt.aliased) order.field).Plain := by
  intro order horder
  unfold orderField
  cases hmap : aliseMap stmt.aliased order.field.fieldName with
  | none => exact (orderDescs_plain h order horder).withAlise
  | some field =>
    obtain ⟨f, hf, rfl⟩ := mem_aliased (aliseMap_mem hmap)
    exact (h.select f hf).withAlise

theorem rewrite_groupByFields (h : stmt.PlainColumns) : stmt.rewrite.groupByFields = [] := by
  simp [rewrite, h.noGroup, rewriteGroup]

theorem rewrite_having (h : stmt.PlainColumns) : stmt.rewrite.having = none := by
  simp [rewrite, h.noHaving]

theorem rewrite_orderFields :
    stmt.rewrite.orderFields = stmt.orderDescs.map fun order =>
      { order with field := orderField (aliseMap stmt.aliased) order.field } := by
  simp only [rewrite, rewriteOrder_fst]

theorem rewrite_selectFields (h : stmt.PlainColumns) :
    stmt.rewrite.selectFields =
      (rewriteOrder (aliseMap stmt.aliased) stmt.orderDescs
        (stmt.aliased.foldl addField [])).2.map FieldDesc.withAlise := by
  simp [rewrite, h.noHaving, h.noGroup, rewriteGroup]

theorem rewrite_select_plain (h : stmt.PlainColumns) :
    ∀ field ∈ stmt.rewrite.selectFields, field.Plain := by
  intro field hfield
  rw [rewrite_selectFields h] at hfield
  obtain ⟨f, hf, rfl⟩ := mem_map.mp hfield
  refine FieldDesc.Plain.withAlise ?_
  rcases mem_rewriteOrder hf with hin | ⟨order, horder, rfl⟩
  · obtain ⟨g, hg, rfl⟩ := mem_aliased ((mem_foldl_addField hin).resolve_left (by simp))
    exact (h.select g hg).withAlise
  · exact (orderDescs_plain h order horder).withAlise

/-- **The columns that are asked for**: those selected, and those of ORDER BY. -/
theorem mem_rewrite_select (h : stmt.PlainColumns) (name : String) :
    (none, name) ∈ stmt.rewrite.selectFields.map FieldDesc.key ↔
      name ∈ stmt.selectColumns ∨ name ∈ stmt.orderColumns := by
  have hselected : ∀ k, k ∈ (stmt.aliased.foldl addField []).map FieldDesc.key ↔
      k ∈ stmt.selectFields.map FieldDesc.key := by
    intro k
    rw [mem_foldl_addField_key]
    simp [aliased]
  have hmap : ∀ name f, aliseMap stmt.aliased name = some f →
      f.key ∈ (stmt.aliased.foldl addField []).map FieldDesc.key := by
    intro name f hf
    obtain ⟨g, hg, rfl⟩ := mem_aliased (aliseMap_mem hf)
    rw [hselected, FieldDesc.withAlise_key]
    exact mem_map_of_mem hg
  have hkeys : (stmt.rewrite.selectFields.map FieldDesc.key) =
      (rewriteOrder (aliseMap stmt.aliased) stmt.orderDescs
        (stmt.aliased.foldl addField [])).2.map FieldDesc.key := by
    rw [rewrite_selectFields h]
    simp
  rw [hkeys, mem_rewriteOrder_key stmt.orderDescs hmap, hselected]
  refine or_congr ?_ ?_
  · simp only [selectColumns, mem_map]
    refine exists_congr fun f => and_congr_right fun hf => ?_
    rw [(h.select f hf).key]
    simp
  · simp only [orderColumns, mem_map]
    refine exists_congr fun order => and_congr_right fun horder => ?_
    rw [(orderField_plain h order horder).key]
    simp [eq_comm]

end QueryStatement

end Mile.Merge
