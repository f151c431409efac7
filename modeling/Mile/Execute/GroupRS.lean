/-
  Mile.Execute.GroupRS
  ────────────────────
  **GROUPS OF A NODE'S ROWS** (`execute/GroupRS.cpp`, `common/AggrFunc.cpp`).

  The constructor lists the fields to fetch and three arrays of positions:

      grp_index       where a group field stands in the select list, or 0
      agr_index       where a function stands in the select list
      agr_ref_index   where its argument stands in the fetched row

  `AddResult` looks a row up by its group cells and takes it into each function whose range
  expression it satisfies.
-/
import Mile.Execute.Expression
import Mile.Common.AggrFunc
import Mile.Lib.Grouping

namespace Mile.Execute

open Lib Common DocDb List

/-! ## §1. The constructor. -/

/-- `struct select_field_t`: a value, or a function of a field. -/
inductive SelectField where
  | value (fieldName : Bytes)
  | function (funcType : FunctionType) (selectName fieldName : Bytes)
      (rangeExp : Option (List FilterCondition))

def SelectField.isValue (name : Bytes) : SelectField → Bool
  | .value fieldName => fieldName = name
  | .function .. => false

/-- An entry of the arrays `agr_func_types`, `agr_index`, `agr_ref_index` and
`agr_range_exp`. -/
structure Aggregate where
  funcType : FunctionType
  index : Nat
  refIndex : Nat
  rangeExp : Option Expression

/-- `class GroupRS`, without the map. -/
structure GroupRS where
  srcFields : List FieldSelect
  selN : Nat
  grpIndex : List Nat
  aggregates : List Aggregate

/-- The argument of a function among the source fields, added if it is not there. -/
def refField (src : List FieldSelect) (f : FunctionType) (name : Bytes) :
    List FieldSelect × Nat :=
  match src.findIdx? fun s => s.name = name with
  | some j => (src, j)
  | none => (src ++ [⟨name, if f = .countDistinct then .hash else .original⟩], src.length)

/-- A field of a range expression: one that is compared as it is, is fetched so. -/
def addRangeField (src : List FieldSelect) (field : FieldSelect) : List FieldSelect :=
  match src.findIdx? fun s => s.name = field.name with
  | some k =>
    if field.selectType = .original then src.modify k fun s => { s with selectType := .original }
    else src
  | none => src ++ [field]

def addSelectField (src : List FieldSelect) (agrs : List Aggregate) (i : Nat) :
    SelectField → Option (List FieldSelect × List Aggregate)
  | .value _ => some (src, agrs)
  | .function f _ name range =>
    let ref := if f = .count then (src, 0) else refField src f name
    match range with
    | none => some (ref.1, agrs ++ [⟨f, i, ref.2, none⟩])
    | some conds =>
      match genExp conds with
      | none => none
      | some (exp, fields) =>
        some (fields.foldl addRangeField ref.1, agrs ++ [⟨f, i, ref.2, some exp⟩])

def addSelectFields :
    List SelectField → Nat → List FieldSelect → List Aggregate →
      Option (List FieldSelect × List Aggregate)
  | [], _, src, agrs => some (src, agrs)
  | field :: fields, i, src, agrs =>
    match addSelectField src agrs i field with
    | none => none
    | some s => addSelectFields fields (i + 1) s.1 s.2

def maxSrcFields : Nat := 1000

/-- The constructor.  `grp_index` has room for as many entries as there are select
fields, whatever the number of group fields; `none` if an array is overrun. -/
def GroupRS.make (select : List SelectField) (group : List Bytes) : Option GroupRS :=
  if group.length ≤ select.length then
    match addSelectFields select 0 (group.map fun name => ⟨name, .hash⟩) [] with
    | none => none
    | some (src, agrs) =>
      if src.length ≤ maxSrcFields then
        some ⟨src, select.length,
          group.map fun name => (select.findIdx? (SelectField.isValue name)).getD 0, agrs⟩
      else none
  else none

/-! ## §2. `AddResult`. -/

/-- A column of a row of the result: a value, or the `HashSet` of a COUNT DISTINCT. -/
inductive AggCell where
  | data (value : LowData)
  | set (elements : List LowData)
  deriving DecidableEq

/-- A row that is added, with its handler. -/
structure SrcRow (η : Type) where
  handler : η
  cells : List SelectCell

structure GroupRow (η : Type) where
  handler : η
  data : List AggCell
  selectType : List SelectType

/-- How `AddResult` ends without success: with a code, or by a read of something that
is not there. -/
inductive GroupFault where
  | code (result : Int)
  | undefined
  deriving DecidableEq

/-- `CountDistinct`, on the set: NULL is not added. -/
def addDistinct (elements : List LowData) (new : LowData) : List LowData :=
  if elements.any fun e => isLdEqual e new then elements
  else if new.type ≠ .null then elements ++ [new]
  else elements

section Add

variable {η : Type} (funcs : AggrFunc.OtherFuncs)

/-- `ComputeFunc`, with the set of a COUNT DISTINCT.  A pointer to other data is not
one to a set. -/
def computeCell (f : FunctionType) (cur : AggCell) (new : Option LowData) :
    Except GroupFault AggCell :=
  match f, cur with
  | .countDistinct, .set elements =>
    match new with
    | none => .error .undefined
    | some v => .ok (.set (addDistinct elements v))
  | .countDistinct, .data d =>
    match new with
    | none => .error .undefined
    | some v => if d.len = 0 then .ok (.set (addDistinct [] v)) else .error .undefined
  | f, .data d =>
    match AggrFunc.computeFunc funcs f d new with
    | none => .error .undefined
    | some v => .ok (.data v)
  | _, .set _ => .error .undefined

def Aggregate.wanted (a : Aggregate) (cells : List SelectCell) : Except GroupFault Bool :=
  match a.rangeExp with
  | none => .ok true
  | some exp =>
    match exp.execute cells with
    | none => .error .undefined
    | some result => if result < 0 then .error (.code result) else .ok (result ≠ 0)

def Aggregate.update (a : Aggregate) (cells : List SelectCell) (cur : AggCell) :
    Except GroupFault AggCell := do
  if ← a.wanted cells then computeCell funcs a.funcType cur ((cells[a.refIndex]?).map (·.data))
  else return cur

/-- The group cells, as `RowEquals` compares them: by type and data. -/
def GroupRS.grpKey (rs : GroupRS) (row : SrcRow η) : List (FieldType × Bytes) :=
  (row.cells.take rs.grpIndex.length).map fun cell => (cell.data.type, cell.data.data)

/-- The row made for a new group: all columns zero but those at `grp_index`. -/
def GroupRS.newRow (rs : GroupRS) (row : SrcRow η) : GroupRow η where
  handler := row.handler
  data := (rs.grpIndex.zip row.cells).foldl (fun data p => data.set p.1 (.data p.2.data))
    (replicate rs.selN (.data zeroData))
  selectType := (rs.grpIndex.zip row.cells).foldl (fun types p => types.set p.1 p.2.selectType)
    (replicate rs.selN .original)

def GroupRS.takeRow (rs : GroupRS) (row : SrcRow η) (sel : GroupRow η) :
    Except GroupFault (GroupRow η) := do
  let data ← updateAtM (fun a => Aggregate.update funcs a row.cells) Aggregate.index .undefined
    rs.aggregates sel.data
  return { sel with data := data }

/-- `AddResult`. -/
def GroupRS.addResult (rs : GroupRS) (map : List (List (FieldType × Bytes) × GroupRow η))
    (row : SrcRow η) : Except GroupFault (List (List (FieldType × Bytes) × GroupRow η)) :=
  upsertM (rs.takeRow funcs row (rs.newRow row)) (rs.takeRow funcs row) (rs.grpKey row) map

/-- `AddResult` for each row. -/
def GroupRS.addResults (rs : GroupRS) (rows : List (SrcRow η)) :
    Except GroupFault (List (List (FieldType × Bytes) × GroupRow η)) :=
  rows.foldlM (rs.addResult funcs) []

end Add

theorem isLdEqual_iff {a b : LowData} :
    isLdEqual a b = true ↔ (a.type, a.data) = (b.type, b.data) := by
  simp [isLdEqual]

/-! ## §3. What a function has accumulated. -/

def Foremost (t : FieldType) (before : List Int → List Int → Prop) (v : LowData)
    (vals : List LowData) : Prop :=
  (v.IsNull ∧ v.type ≠ .notcomp ∧ ∀ w ∈ vals, w.IsNull) ∨
    ¬v.IsNull ∧ v.type = t ∧ (∃ w ∈ vals, w.type = t ∧ w.data = v.data) ∧
      ∀ w ∈ vals, ¬w.IsNull → before (orderKey t v.data) (orderKey t w.data)

/-- The elements are the values whose type is not NULL, each once. -/
structure DistinctOf (vals elements : List LowData) : Prop where
  subset : ∀ e ∈ elements, ∃ w ∈ vals, w.type ≠ .null ∧ isLdEqual e w = true
  covers : ∀ w ∈ vals, w.type ≠ .null → ∃ e ∈ elements, isLdEqual e w = true
  distinct : elements.Pairwise fun a b => isLdEqual a b = false

/-- What stands in the column of a function after some values; `t` is the type of
the values. -/
def Accumulates (funcs : AggrFunc.OtherFuncs) (t : FieldType) (f : FunctionType)
    (vals : List LowData) (cell : AggCell) : Prop :=
  match f with
  | .count =>
    ∃ v, cell = .data v ∧ AggrFunc.Counts v vals.length ∧ (v.len = 8 → v.type = .longlong) ∧
      (vals = [] → v.len = 0)
  | .max => ∃ v, cell = .data v ∧ Foremost t (· ≥ ·) v vals
  | .min => ∃ v, cell = .data v ∧ Foremost t (· ≤ ·) v vals
  | .countDistinct =>
    vals = [] ∧ cell = .data zeroData ∨ ∃ elements, cell = .set elements ∧ DistinctOf vals elements
  | .sum => cell = .data (vals.foldl funcs.sum zeroData)
  | f => cell = .data (vals.foldl (funcs.other f) zeroData)

section Accumulate

variable {funcs : AggrFunc.OtherFuncs} {t : FieldType} {vals elements : List LowData}
  {v w : LowData}

theorem forall_mem_concat {α : Type} {p : α → Prop} {l : List α} {a : α} :
    (∀ x ∈ l ++ [a], p x) ↔ (∀ x ∈ l, p x) ∧ p a := by
  rw [forall_mem_append, forall_mem_singleton]

theorem counts_add {n : Nat} (h : AggrFunc.Counts v n) (htype : v.len = 8 → v.type = .longlong) :
    AggrFunc.Counts (AggrFunc.count v) (n + 1) ∧ (AggrFunc.count v).type = .longlong := by
  rcases h with ⟨hlen, rfl⟩ | ⟨hlen, hnum⟩
  · refine ⟨AggrFunc.Counts.one hlen, ?_⟩
    rw [AggrFunc.count, if_pos hlen]
  · have hrest : v.data.drop 8 = [] := drop_of_length_le (le_of_eq hlen)
    rw [AggrFunc.count, if_neg (by omega)]
    refine ⟨.inr ⟨by simp [LowData.len, hrest], ?_⟩, htype hlen⟩
    show leNat (leBytes 8 _ ++ _) = _
    rw [hrest, append_nil, leNat_leBytes, AggrFunc.countOf_eq hlen, hnum]
    omega

/-- One more value for MIN or MAX. -/
theorem Foremost.add {before : List Int → List Int → Prop} {ret : Int} (ht : t.IsInteger ∨ t.IsText)
    (hrefl : ∀ a, before a a) (htake : ∀ a b : List Int, comp a b = ret → before b a)
    (hkeep : ∀ a b : List Int, comp a b ≠ ret → before a b)
    (htrans : ∀ a b c : List Int, before a b → before b c → before a c)
    (hv : Foremost t before v vals) (hw : AggrFunc.OfColumn t w) :
    Foremost t before (AggrFunc.pick ret v w) (vals ++ [w]) := by
  have hnot : t ≠ .notcomp := by
    rintro rfl
    exact absurd ht (by unfold FieldType.IsText; decide)
  unfold AggrFunc.pick
  rcases hv with ⟨hnull, htype, hall⟩ | ⟨hnull, htype, ⟨x, hx, hxt, hxv⟩, hall⟩
  · -- nothing but NULL so far: the new value is taken, whatever it is
    rw [if_neg htype, if_pos hnull]
    by_cases hwnull : w.IsNull
    · refine .inl ⟨hwnull, ?_, ?_⟩
      · rcases hw with h | h <;> rw [h]
        · decide
        · exact hnot
      · rw [forall_mem_concat]
        exact ⟨hall, hwnull⟩
    · have hwt : w.type = t := hw.resolve_left fun h => hwnull (.inl h)
      refine .inr ⟨hwnull, hwt, ⟨w, by simp, hwt, rfl⟩, ?_⟩
      rw [forall_mem_concat]
      exact ⟨fun u hu hne => absurd (hall u hu) hne, fun _ => hrefl _⟩
  rw [if_neg (htype ▸ hnot), if_neg hnull]
  by_cases hwnull : w.IsNull
  · rw [if_pos hwnull]
    refine .inr ⟨hnull, htype, ⟨x, mem_append_left _ hx, hxt, hxv⟩, ?_⟩
    rw [forall_mem_concat]
    exact ⟨hall, fun hne => absurd hwnull hne⟩
  have hwt : w.type = t := hw.resolve_left fun h => hwnull (.inl h)
  rw [if_neg hwnull, compareLd_eq_comp ht htype hwt]
  by_cases hc : comp (orderKey t v.data) (orderKey t w.data) = ret
  · rw [if_pos hc]
    refine .inr ⟨hwnull, hwt, ⟨w, by simp, hwt, rfl⟩, ?_⟩
    rw [forall_mem_concat]
    exact ⟨fun u hu hne => htrans _ _ _ (htake _ _ hc) (hall u hu hne), fun _ => hrefl _⟩
  · rw [if_neg hc, if_neg comp_ne_neg_two]
    refine .inr ⟨hnull, htype, ⟨x, mem_append_left _ hx, hxt, hxv⟩, ?_⟩
    rw [forall_mem_concat]
    exact ⟨hall, fun _ => hkeep _ _ hc⟩

theorem foremost_max (ht : t.IsInteger ∨ t.IsText) (hv : Foremost t (· ≥ ·) v vals)
    (hw : AggrFunc.OfColumn t w) : Foremost t (· ≥ ·) (AggrFunc.max v w) (vals ++ [w]) := by
  refine hv.add ht (fun _ => le_refl _) ?_ ?_ (fun a b c hab hbc => le_trans hbc hab) hw
  · intro a b h
    exact (comp_eq_neg_one.mp h).le
  · intro a b h
    exact not_lt.mp fun hlt => h (comp_eq_neg_one.mpr hlt)

theorem foremost_min (ht : t.IsInteger ∨ t.IsText) (hv : Foremost t (· ≤ ·) v vals)
    (hw : AggrFunc.OfColumn t w) : Foremost t (· ≤ ·) (AggrFunc.min v w) (vals ++ [w]) := by
  refine hv.add ht (fun _ => le_refl _) ?_ ?_ (fun a b c hab hbc => le_trans hab hbc) hw
  · intro a b h
    exact (comp_eq_one.mp h).le
  · intro a b h
    exact not_lt.mp fun hlt => h (comp_eq_one.mpr hlt)

/-- One more value for COUNT(DISTINCT). -/
theorem DistinctOf.add (h : DistinctOf vals elements) (w : LowData) :
    DistinctOf (vals ++ [w]) (addDistinct elements w) := by
  have hsubset : ∀ e ∈ elements, ∃ x ∈ vals ++ [w], x.type ≠ .null ∧ isLdEqual e x = true := by
    intro e he
    obtain ⟨x, hx, hxe⟩ := h.subset e he
    exact ⟨x, mem_append_left _ hx, hxe⟩
  unfold addDistinct
  by_cases hany : (elements.any fun e => isLdEqual e w) = true
  · -- an equal one is there
    rw [if_pos hany]
    obtain ⟨e, he, heq⟩ := any_eq_true.mp hany
    refine ⟨hsubset, ?_, h.distinct⟩
    rw [forall_mem_concat]
    exact ⟨h.covers, fun _ => ⟨e, he, heq⟩⟩
  rw [if_neg hany]
  by_cases hnull : w.type = .null
  · rw [if_neg (not_not.mpr hnull)]
    refine ⟨hsubset, ?_, h.distinct⟩
    rw [forall_mem_concat]
    exact ⟨h.covers, fun hne => absurd hnull hne⟩
  · rw [if_pos hnull]
    refine ⟨?_, ?_, ?_⟩
    · rw [forall_mem_concat]
      exact ⟨hsubset, w, by simp, hnull, isLdEqual_iff.mpr rfl⟩
    · rw [forall_mem_concat]
      refine ⟨fun x hx hne => ?_, fun _ => ⟨w, by simp, isLdEqual_iff.mpr rfl⟩⟩
      obtain ⟨e, he, heq⟩ := h.covers x hx hne
      exact ⟨e, mem_append_left _ he, heq⟩
    · refine pairwise_append.mpr ⟨h.distinct, pairwise_singleton _ _, ?_⟩
      intro a ha b hb
      rw [mem_singleton.mp hb]
      exact Bool.eq_false_iff.mpr fun heq => hany (any_eq_true.mpr ⟨a, ha, heq⟩)

theorem distinctOf_nil : DistinctOf [] [] :=
  ⟨by simp, by simp, Pairwise.nil⟩

/-- Which values a function can be of: `Max` and `Min` compare them. -/
def Comparable (t : FieldType) (f : FunctionType) (w : LowData) : Prop :=
  (f = .max ∨ f = .min) → (t.IsInteger ∨ t.IsText) ∧ AggrFunc.OfColumn t w

theorem accumulates_nil (f : FunctionType) : Accumulates funcs t f [] (.data zeroData) := by
  cases f
  case count =>
    exact ⟨zeroData, rfl, .inl ⟨rfl, rfl⟩, fun h => absurd h (by decide), fun _ => rfl⟩
  case max | min => exact ⟨zeroData, rfl, .inl ⟨zeroData_isNull, by decide, by simp⟩⟩
  case countDistinct => exact .inl ⟨rfl, rfl⟩
  all_goals rfl

/-- One more value for an aggregate. -/
theorem Accumulates.add {f : FunctionType} {cell : AggCell}
    (h : Accumulates funcs t f vals cell) (hw : Comparable t f w) :
    ∃ cell', computeCell funcs f cell (some w) = .ok cell' ∧
      Accumulates funcs t f (vals ++ [w]) cell' := by
  cases f
  case count =>
    obtain ⟨v, rfl, hcounts, htype, -⟩ := h
    obtain ⟨hcounts', htype'⟩ := counts_add hcounts htype
    refine ⟨.data (AggrFunc.count v), rfl, _, rfl, ?_, fun _ => htype', by simp⟩
    rw [length_append]
    exact hcounts'
  case max =>
    obtain ⟨v, rfl, hv⟩ := h
    obtain ⟨ht, hof⟩ := hw (.inl rfl)
    exact ⟨.data (AggrFunc.max v w), rfl, _, rfl, foremost_max ht hv hof⟩
  case min =>
    obtain ⟨v, rfl, hv⟩ := h
    obtain ⟨ht, hof⟩ := hw (.inr rfl)
    exact ⟨.data (AggrFunc.min v w), rfl, _, rfl, foremost_min ht hv hof⟩
  case countDistinct =>
    rcases h with ⟨rfl, rfl⟩ | ⟨elements, rfl, hset⟩
    · exact ⟨.set (addDistinct [] w), rfl, .inr ⟨_, rfl, distinctOf_nil.add w⟩⟩
    · exact ⟨.set (addDistinct elements w), rfl, .inr ⟨_, rfl, hset.add w⟩⟩
  case sum =>
    obtain rfl : cell = .data (vals.foldl funcs.sum zeroData) := h
    refine ⟨_, rfl, ?_⟩
    show _ = AggCell.data ((vals ++ [w]).foldl funcs.sum zeroData)
    rw [foldl_append]
    rfl
  all_goals
    obtain rfl := h
    refine ⟨_, rfl, ?_⟩
    show _ = AggCell.data ((vals ++ [w]).foldl (funcs.other _) zeroData)
    rw [foldl_append]
    rfl

end Accumulate

/-! ## §4. The positions of the functions. -/

def functionsFrom : List SelectField → Nat → List (Nat × FunctionType)
  | [], _ => []
  | .value _ :: fields, i => functionsFrom fields (i + 1)
  | .function f _ _ _ :: fields, i => (i, f) :: functionsFrom fields (i + 1)

variable {fields : List SelectField} {i : Nat} {agrs : List Aggregate}

theorem functionsFrom_le {p : Nat × FunctionType}
    (h : p ∈ functionsFrom fields i) : i ≤ p.1 ∧ p.1 < i + fields.length := by
  induction fields generalizing i with
  | nil => exact absurd h not_mem_nil
  | cons field fields ih =>
    rw [length_cons]
    cases field with
    | value name =>
      have := ih h
      omega
    | function f sel name range =>
      rcases mem_cons.mp h with rfl | h
      · simp only
        omega
      · have := ih h
        omega

theorem functionsFrom_nodup (fields : List SelectField) (i : Nat) :
    ((functionsFrom fields i).map Prod.fst).Nodup := by
  induction fields generalizing i with
  | nil => exact nodup_nil
  | cons field fields ih =>
    cases field with
    | value name => exact ih (i + 1)
    | function f sel name range =>
      refine nodup_cons.mpr ⟨fun hmem => ?_, ih (i + 1)⟩
      obtain ⟨p, hp, heq⟩ := mem_map.mp hmem
      have := functionsFrom_le hp
      omega

theorem refField_length (src : List FieldSelect) (f : FunctionType) (name : Bytes) :
    src.length ≤ (refField src f name).1.length ∧
      (refField src f name).2 < (refField src f name).1.length := by
  unfold refField
  cases hfind : src.findIdx? fun s => s.name = name with
  | some j => exact ⟨le_refl _, (findIdx?_eq_some_iff_getElem.mp hfind).1⟩
  | none => simp

theorem addRangeField_length (src : List FieldSelect) (field : FieldSelect) :
    src.length ≤ (addRangeField src field).length := by
  unfold addRangeField
  cases src.findIdx? fun s => s.name = field.name with
  | some k =>
    dsimp only
    split_ifs
    · rw [length_modify]
    · exact le_refl _
  | none => simp

theorem foldl_addRangeField_length (fields src : List FieldSelect) :
    src.length ≤ (fields.foldl addRangeField src).length := by
  induction fields generalizing src with
  | nil => exact le_refl _
  | cons field fields ih => exact (addRangeField_length src field).trans (ih _)

def RefsIn (n : Nat) (agrs : List Aggregate) : Prop :=
  ∀ a ∈ agrs, a.funcType ≠ .count → a.refIndex < n

variable {agrs' : List Aggregate}

/-- What one selected field adds. -/
theorem addSelectField_spec {field : SelectField} {src src' : List FieldSelect}
    (h : addSelectField src agrs i field = some (src', agrs')) (href : RefsIn src.length agrs) :
    agrs'.map (fun a => (a.index, a.funcType)) =
        agrs.map (fun a => (a.index, a.funcType)) ++ functionsFrom [field] i ∧
      src.length ≤ src'.length ∧ RefsIn src'.length agrs' := by
  cases field with
  | value name =>
    obtain ⟨rfl, rfl⟩ := Prod.mk.inj (Option.some.inj h)
    exact ⟨by simp [functionsFrom], le_refl _, href⟩
  | function f sel name range =>
    simp only [addSelectField] at h
    -- the source fields with the argument
    generalize href' : (if f = .count then (src, 0) else refField src f name) = ref at h
    have hlen : src.length ≤ ref.1.length ∧ (f ≠ .count → ref.2 < ref.1.length) := by
      by_cases hf : f = .count
      · rw [← href', if_pos hf]
        exact ⟨le_refl _, fun hne => absurd hf hne⟩
      · rw [← href', if_neg hf]
        exact ⟨(refField_length src f name).1, fun _ => (refField_length src f name).2⟩
    have hadd : ∀ (exp : Option Expression) (srcs : List FieldSelect),
        ref.1.length ≤ srcs.length → RefsIn srcs.length (agrs ++ [⟨f, i, ref.2, exp⟩]) := by
      intro exp srcs hle a ha hne
      rcases mem_append.mp ha with ha | ha
      · have := href a ha hne
        omega
      · obtain rfl := mem_singleton.mp ha
        have := hlen.2 hne
        simp only at this ⊢
        omega
    cases range with
    | none =>
      obtain ⟨rfl, rfl⟩ := Prod.mk.inj (Option.some.inj h)
      exact ⟨by simp [functionsFrom], hlen.1, hadd none _ (le_refl _)⟩
    | some conds =>
      cases hgen : genExp conds with
      | none => simp [hgen] at h
      | some r =>
        obtain ⟨exp, fields⟩ := r
        simp only [hgen, Option.some.injEq, Prod.mk.injEq] at h
        obtain ⟨rfl, rfl⟩ := h
        have hfold := foldl_addRangeField_length fields ref.1
        exact ⟨by simp [functionsFrom], hlen.1.trans hfold, hadd (some exp) _ hfold⟩

theorem functionsFrom_cons (field : SelectField) (fields : List SelectField) (i : Nat) :
    functionsFrom (field :: fields) i =
      functionsFrom [field] i ++ functionsFrom fields (i + 1) := by
  cases field <;> rfl

/-- What all selected fields add. -/
theorem addSelectFields_spec {src src' : List FieldSelect}
    (h : addSelectFields fields i src agrs = some (src', agrs')) (href : RefsIn src.length agrs) :
    agrs'.map (fun a => (a.index, a.funcType)) =
        agrs.map (fun a => (a.index, a.funcType)) ++ functionsFrom fields i ∧
      src.length ≤ src'.length ∧ RefsIn src'.length agrs' := by
  induction fields generalizing i src agrs with
  | nil =>
    obtain ⟨rfl, rfl⟩ := Prod.mk.inj (Option.some.inj h)
    exact ⟨by simp [functionsFrom], le_refl _, href⟩
  | cons field fields ih =>
    cases hone : addSelectField src agrs i field with
    | none => simp [addSelectFields, hone] at h
    | some s =>
      obtain ⟨src₁, agrs₁⟩ := s
      simp only [addSelectFields, hone] at h
      obtain ⟨hmap, hle, href₁⟩ := addSelectField_spec hone href
      obtain ⟨hmap', hle', href'⟩ := ih h href₁
      refine ⟨?_, hle.trans hle', href'⟩
      rw [hmap', hmap, functionsFrom_cons field fields, append_assoc]

/-! ### Functions without a range expression. -/

def SelectField.Unranged : SelectField → Prop
  | .value _ => True
  | .function _ _ _ range => range = none

def SelectField.argument? : SelectField → Option Bytes
  | .value _ => none
  | .function f _ name _ => if f = .count then none else some name

def addName {ν : Type} [DecidableEq ν] (names : List ν) (name : ν) : List ν :=
  if name ∈ names then names else names ++ [name]

theorem refField_names (src : List FieldSelect) (f : FunctionType) (name : Bytes) :
    (refField src f name).1.map FieldSelect.name = addName (src.map FieldSelect.name) name := by
  unfold refField addName
  cases hfind : src.findIdx? fun s => s.name = name with
  | some j =>
    obtain ⟨hlt, htest, -⟩ := findIdx?_eq_some_iff_getElem.mp hfind
    have hmem : name ∈ src.map FieldSelect.name :=
      mem_map.mpr ⟨src[j], getElem_mem hlt, of_decide_eq_true htest⟩
    rw [if_pos hmem]
  | none =>
    have hmem : name ∉ src.map FieldSelect.name := by
      intro hin
      obtain ⟨s, hs, hname⟩ := mem_map.mp hin
      have htest := findIdx?_eq_none_iff.mp hfind s hs
      simp [hname] at htest
    rw [if_neg hmem, map_append]
    rfl

/-- Without ranges the names are collected once. -/
theorem addSelectFields_unranged
    (hranges : ∀ field ∈ fields, field.Unranged) (i : Nat) (src : List FieldSelect)
    (hagrs : ∀ a ∈ agrs, a.rangeExp = none) :
    ∃ src' agrs', addSelectFields fields i src agrs = some (src', agrs') ∧
      src'.map FieldSelect.name =
        (fields.filterMap SelectField.argument?).foldl addName (src.map FieldSelect.name) ∧
      ∀ a ∈ agrs', a.rangeExp = none := by
  induction fields generalizing i src agrs with
  | nil => exact ⟨src, agrs, rfl, rfl, hagrs⟩
  | cons field fields ih =>
    obtain ⟨hfield, hfields⟩ := forall_mem_cons.mp hranges
    cases field with
    | value name => exact ih hfields (i + 1) src hagrs
    | function f sel name range =>
      obtain rfl : range = none := hfield
      have hone : ∀ ref : List FieldSelect × Nat, ∀ a ∈ agrs ++ [⟨f, i, ref.2, none⟩],
          a.rangeExp = none := by
        intro ref a ha
        rcases mem_append.mp ha with ha | ha
        · exact hagrs a ha
        · rw [mem_singleton.mp ha]
      by_cases hf : f = .count
      · obtain ⟨src', agrs', hrun, hnames, hnone⟩ := ih hfields (i + 1) src (hone (src, 0))
        refine ⟨src', agrs', ?_, ?_, hnone⟩
        · simp only [addSelectFields, addSelectField, if_pos hf]
          exact hrun
        · rw [hnames, filterMap_cons_none]
          rw [SelectField.argument?, if_pos hf]
      · obtain ⟨src', agrs', hrun, hnames, hnone⟩ :=
          ih hfields (i + 1) (refField src f name).1 (hone (refField src f name))
        refine ⟨src', agrs', ?_, ?_, hnone⟩
        · simp only [addSelectFields, addSelectField, if_neg hf]
          exact hrun
        · have harg : SelectField.argument? (.function f sel name none) = some name := by
            rw [SelectField.argument?, if_neg hf]
          rw [hnames, filterMap_cons_some harg, foldl_cons, refField_names]

/-- The arrays of a result set fit its rows. -/
structure GroupRS.WellFormed (rs : GroupRS) : Prop where
  nodup : (rs.aggregates.map Aggregate.index).Nodup
  inSelect : ∀ a ∈ rs.aggregates, a.index < rs.selN
  inSource : RefsIn rs.srcFields.length rs.aggregates
  groups : rs.grpIndex.length ≤ rs.srcFields.length

section Make

variable {select : List SelectField} {group : List Bytes} {rs : GroupRS}

/-- What the constructor sets up. -/
theorem GroupRS.make_spec (h : GroupRS.make select group = some rs) :
    group.length ≤ select.length ∧ rs.selN = select.length ∧
      rs.grpIndex =
        group.map (fun name => (select.findIdx? (SelectField.isValue name)).getD 0) ∧
      rs.aggregates.map (fun a => (a.index, a.funcType)) = functionsFrom select 0 ∧
      group.length ≤ rs.srcFields.length ∧ rs.srcFields.length ≤ maxSrcFields ∧
      RefsIn rs.srcFields.length rs.aggregates := by
  unfold GroupRS.make at h
  by_cases hlen : group.length ≤ select.length
  · rw [if_pos hlen] at h
    cases hadd : addSelectFields select 0 (group.map fun name => ⟨name, .hash⟩) [] with
    | none => simp [hadd] at h
    | some s =>
      obtain ⟨src, agrs⟩ := s
      simp only [hadd] at h
      obtain ⟨hmap, hle, href⟩ := addSelectFields_spec hadd fun a ha => absurd ha (by simp)
      by_cases hmax : src.length ≤ maxSrcFields
      · rw [if_pos hmax] at h
        obtain rfl := Option.some.inj h
        rw [length_map] at hle
        exact ⟨hlen, rfl, rfl, by simpa using hmap, hle, hmax, href⟩
      · rw [if_neg hmax] at h
        cases h
  · rw [if_neg hlen] at h
    cases h

theorem GroupRS.make_function (h : GroupRS.make select group = some rs) {a : Aggregate}
    (ha : a ∈ rs.aggregates) : (a.index, a.funcType) ∈ functionsFrom select 0 := by
  rw [← (GroupRS.make_spec h).2.2.2.1]
  exact mem_map.mpr ⟨a, ha, rfl⟩

theorem GroupRS.make_wellFormed (h : GroupRS.make select group = some rs) : rs.WellFormed := by
  obtain ⟨-, hsel, hgrp, hagr, hgroup, -, href⟩ := GroupRS.make_spec h
  have hindex : rs.aggregates.map Aggregate.index = (functionsFrom select 0).map Prod.fst := by
    rw [← hagr, map_map]
    rfl
  refine ⟨?_, ?_, href, ?_⟩
  · rw [hindex]
    exact functionsFrom_nodup select 0
  · intro a ha
    have := functionsFrom_le (GroupRS.make_function h ha)
    simp only at this
    omega
  · rw [hgrp, length_map]
    exact hgroup

theorem functionsFrom_get {fields : List SelectField} {i : Nat} {p : Nat × FunctionType}
    (h : p ∈ functionsFrom fields i) :
    ∃ sel name range, fields[p.1 - i]? = some (.function p.2 sel name range) := by
  induction fields generalizing i with
  | nil => exact absurd h not_mem_nil
  | cons head fields ih =>
    have hlater : p ∈ functionsFrom fields (i + 1) →
        ∃ sel name range, (head :: fields)[p.1 - i]? = some (.function p.2 sel name range) := by
      intro hmem
      have hle := functionsFrom_le hmem
      rw [show p.1 - i = (p.1 - (i + 1)) + 1 by omega, getElem?_cons_succ]
      exact ih hmem
    cases head with
    | value fieldName => exact hlater h
    | function f sel fieldName range =>
      rcases mem_cons.mp h with rfl | h
      · exact ⟨sel, fieldName, range, by simp⟩
      · exact hlater h

theorem GroupRS.make_apart (h : GroupRS.make select group = some rs)
    (hselected : ∀ name ∈ group, ∃ field ∈ select, field.isValue name = true) :
    ∀ a ∈ rs.aggregates, a.index ∉ rs.grpIndex := by
  obtain ⟨-, -, hgrp, -⟩ := GroupRS.make_spec h
  intro a ha hmem
  rw [hgrp] at hmem
  obtain ⟨name, hname, heq⟩ := mem_map.mp hmem
  have hsome : (select.findIdx? (SelectField.isValue name)).isSome := by
    rw [findIdx?_isSome, any_eq_true]
    exact hselected name hname
  obtain ⟨j, hj⟩ := Option.isSome_iff_exists.mp hsome
  obtain ⟨hlt, hvalue, -⟩ := findIdx?_eq_some_iff_getElem.mp hj
  rw [hj, Option.getD_some] at heq
  subst heq
  -- a value and a function at one place
  obtain ⟨sel, fieldName, range, hget⟩ := functionsFrom_get (GroupRS.make_function h ha)
  rw [Nat.sub_zero, getElem?_eq_getElem hlt, Option.some.injEq] at hget
  rw [hget] at hvalue
  cases hvalue

/-- **Without range expressions, the constructor fails only for want of room.** -/
theorem GroupRS.make_unranged (hranges : ∀ field ∈ select, field.Unranged) :
    (GroupRS.make select group).isSome ↔ group.length ≤ select.length ∧
      ((select.filterMap SelectField.argument?).foldl addName group).length ≤ maxSrcFields := by
  obtain ⟨src, agrs, hrun, hnames, -⟩ := addSelectFields_unranged hranges 0
    (group.map fun name => ⟨name, .hash⟩) (forall_mem_nil _)
  rw [map_map] at hnames
  have hlen : src.length =
      ((select.filterMap SelectField.argument?).foldl addName group).length := by
    rw [← length_map FieldSelect.name, hnames]
    congr 2
    exact map_id group
  rw [← hlen, GroupRS.make]
  by_cases hgroup : group.length ≤ select.length
  · rw [if_pos hgroup]
    simp only [hrun]
    by_cases hmax : src.length ≤ maxSrcFields
    · simp [hgroup, hmax]
    · simp [hmax]
  · simp [hgroup]

theorem GroupRS.make_rangeExp (hranges : ∀ field ∈ select, field.Unranged)
    (h : GroupRS.make select group = some rs) : ∀ a ∈ rs.aggregates, a.rangeExp = none := by
  obtain ⟨src, agrs, hrun, -, hnone⟩ := addSelectFields_unranged hranges 0
    (group.map fun name => ⟨name, .hash⟩) (forall_mem_nil _)
  unfold GroupRS.make at h
  simp only [hrun] at h
  split_ifs at h
  obtain rfl := Option.some.inj h
  exact hnone

end Make

/-! ## §5. The map after any rows. -/

section Rows

variable {η : Type} (funcs : AggrFunc.OtherFuncs) (rs : GroupRS) (types : Nat → FieldType)

def SrcRow.cell (row : SrcRow η) (j : Nat) : LowData :=
  ((row.cells[j]?).map (·.data)).getD zeroData

def Aggregate.takes (a : Aggregate) (row : SrcRow η) : Bool :=
  match a.wanted row.cells with
  | .ok b => b
  | .error _ => false

def Aggregate.values (a : Aggregate) (rows : List (SrcRow η)) : List LowData :=
  (rows.filter a.takes).map fun row => row.cell a.refIndex

/-- A row with a cell for each source field, on which the range expressions can be
evaluated and whose values can be compared. -/
structure GroupRS.Fits (row : SrcRow η) : Prop where
  length : row.cells.length = rs.srcFields.length
  wanted : ∀ a ∈ rs.aggregates, ∃ b, a.wanted row.cells = .ok b
  typed : ∀ a ∈ rs.aggregates, Comparable (types a.refIndex) a.funcType (row.cell a.refIndex)

/-- A row of the result that was made for `first` and has taken in `rows`. -/
structure GroupRS.Kept (first : SrcRow η) (rows : List (SrcRow η)) (sel : GroupRow η) : Prop where
  handler : sel.handler = first.handler
  selectType : sel.selectType = (rs.newRow first).selectType
  length : sel.data.length = rs.selN
  plain : ∀ i, i ∉ rs.aggregates.map Aggregate.index → sel.data[i]? = (rs.newRow first).data[i]?
  accumulated : ∀ a ∈ rs.aggregates, ∃ cell, sel.data[a.index]? = some cell ∧
    Accumulates funcs (types a.refIndex) a.funcType (a.values rows) cell

def GroupRS.HoldsRows (rows : List (SrcRow η)) (sel : GroupRow η) : Prop :=
  ∃ first, rows.head? = some first ∧ rs.Kept funcs types first rows sel

variable {funcs rs types}

theorem foldl_set_length {α : Type} (pairs : List (Nat × α)) (data : List α) :
    (pairs.foldl (fun data p => data.set p.1 p.2) data).length = data.length := by
  induction pairs generalizing data with
  | nil => rfl
  | cons p pairs ih => exact (ih _).trans length_set

theorem foldl_set_ne {α : Type} {pairs : List (Nat × α)} {i : Nat}
    (h : ∀ p ∈ pairs, p.1 ≠ i) (data : List α) :
    (pairs.foldl (fun data p => data.set p.1 p.2) data)[i]? = data[i]? := by
  induction pairs generalizing data with
  | nil => rfl
  | cons p pairs ih =>
    obtain ⟨hp, hrest⟩ := forall_mem_cons.mp h
    rw [foldl_cons, ih hrest, getElem?_set_ne hp]

def GroupRS.groupPairs (rs : GroupRS) (row : SrcRow η) : List (Nat × AggCell) :=
  (rs.grpIndex.zip row.cells).map fun p => (p.1, .data p.2.data)

theorem newRow_data (row : SrcRow η) :
    (rs.newRow row).data = (rs.groupPairs row).foldl (fun data p => data.set p.1 p.2)
      (replicate rs.selN (.data zeroData)) := by
  rw [GroupRS.groupPairs, foldl_map]
  rfl

theorem newRow_length (row : SrcRow η) : (rs.newRow row).data.length = rs.selN := by
  rw [newRow_data, foldl_set_length, length_replicate]

variable {row : SrcRow η} {rows : List (SrcRow η)}

theorem newRow_zero {i : Nat} (hi : i < rs.selN) (hgrp : i ∉ rs.grpIndex) :
    (rs.newRow row).data[i]? = some (.data zeroData) := by
  rw [newRow_data, foldl_set_ne]
  · rw [getElem?_replicate, if_pos hi]
  · intro p hp heq
    obtain ⟨q, hq, rfl⟩ := mem_map.mp hp
    exact hgrp (heq ▸ (of_mem_zip hq).1)

theorem GroupRS.kept_newRow (hrs : rs.WellFormed)
    (hapart : ∀ a ∈ rs.aggregates, a.index ∉ rs.grpIndex) (row : SrcRow η) :
    rs.Kept funcs types row [] (rs.newRow row) where
  handler := rfl
  selectType := rfl
  length := newRow_length row
  plain _ _ := rfl
  accumulated a ha := ⟨_, newRow_zero (hrs.inSelect a ha) (hapart a ha), accumulates_nil a.funcType⟩

/-- One row is added to an aggregate. -/
theorem Aggregate.update_ok {a : Aggregate}
    {cell : AggCell} (hfits : rs.Fits types row) (hrs : rs.WellFormed) (ha : a ∈ rs.aggregates)
    (h : Accumulates funcs (types a.refIndex) a.funcType (a.values rows) cell) :
    ∃ cell', a.update funcs row.cells cell = .ok cell' ∧
      Accumulates funcs (types a.refIndex) a.funcType (a.values (rows ++ [row])) cell' := by
  obtain ⟨b, hb⟩ := hfits.wanted a ha
  have htakes : a.takes row = b := by
    rw [Aggregate.takes, hb]
  cases b with
  | false =>
    -- the row does not satisfy the range expression
    refine ⟨cell, by simp only [Aggregate.update, hb, bind, Except.bind]; rfl, ?_⟩
    have hsame : a.values (rows ++ [row]) = a.values rows := by
      simp [Aggregate.values, filter_append, htakes]
    rwa [hsame]
  | true =>
    have hvalues : a.values (rows ++ [row]) = a.values rows ++ [row.cell a.refIndex] := by
      simp [Aggregate.values, filter_append, htakes]
    obtain ⟨cell', hcompute, hacc⟩ := h.add (hfits.typed a ha)
    rw [hvalues]
    refine ⟨cell', ?_, hacc⟩
    simp only [Aggregate.update, hb, bind, Except.bind, if_true]
    by_cases hcount : a.funcType = .count
    · -- a count does not look at its argument
      rw [hcount] at hcompute ⊢
      cases cell <;> exact hcompute
    · have hlt : a.refIndex < row.cells.length := by
        rw [hfits.length]
        exact hrs.inSource a ha hcount
      have hcell : (row.cells[a.refIndex]?).map (·.data) = some (row.cell a.refIndex) := by
        simp [SrcRow.cell, getElem?_eq_getElem hlt]
      rw [hcell]
      exact hcompute

/-- One row is added to its group. -/
theorem GroupRS.Kept.takeRow {first : SrcRow η} {sel : GroupRow η}
    (h : rs.Kept funcs types first rows sel) (hrs : rs.WellFormed) (hfits : rs.Fits types row) :
    ∃ sel', rs.takeRow funcs row sel = .ok sel' ∧
      rs.Kept funcs types first (rows ++ [row]) sel' := by
  have hupdates : ∀ a ∈ rs.aggregates, ∃ d d', sel.data[a.index]? = some d ∧
      a.update funcs row.cells d = .ok d' := by
    intro a ha
    obtain ⟨cell, hcell, hacc⟩ := h.accumulated a ha
    obtain ⟨cell', hupdate, -⟩ := Aggregate.update_ok hfits hrs ha hacc
    exact ⟨cell, cell', hcell, hupdate⟩
  obtain ⟨data', hrun, hlen, hupdated, hkept⟩ :=
    @updateAtM_ok _ _ _ _ _ GroupFault.undefined _ hrs.nodup _ hupdates
  refine ⟨{ sel with data := data' }, ?_, ?_⟩
  · simp only [GroupRS.takeRow, hrun]
    rfl
  · refine ⟨h.handler, h.selectType, hlen.trans h.length, ?_, ?_⟩
    · intro i hi
      exact (hkept i hi).trans (h.plain i hi)
    · intro a ha
      obtain ⟨d, d', hd, hd', hget⟩ := hupdated a ha
      obtain ⟨cell, hcell, hacc⟩ := h.accumulated a ha
      obtain rfl := Option.some.inj (hd.symm.trans hcell)
      obtain ⟨cell', hupdate, hacc'⟩ := Aggregate.update_ok hfits hrs ha hacc
      obtain rfl := Except.ok.inj (hd'.symm.trans hupdate)
      exact ⟨_, hget, hacc'⟩

/-- `AddResult` keeps the rows grouped. -/
theorem GroupRS.addResult_grouped
    {map : List (List (FieldType × Bytes) × GroupRow η)}
    (h : Grouped rs.grpKey (rs.HoldsRows funcs types) rows map) (hrs : rs.WellFormed)
    (hapart : ∀ a ∈ rs.aggregates, a.index ∉ rs.grpIndex) (hfits : rs.Fits types row) :
    ∃ map', rs.addResult funcs map row = .ok map' ∧
      Grouped rs.grpKey (rs.HoldsRows funcs types) (rows ++ [row]) map' := by
  refine h.upsert (cons_ne_nil row []) ?_ ?_ ?_
  · intro r hr
    rw [mem_singleton.mp hr]
  · obtain ⟨sel, hsel, hkept⟩ := (kept_newRow hrs hapart row).takeRow hrs hfits
    exact ⟨sel, hsel, row, rfl, hkept⟩
  · rintro sel ⟨first, hfirst, hkept⟩
    obtain ⟨sel', hsel', hkept'⟩ := hkept.takeRow hrs hfits
    refine ⟨sel', hsel', first, ?_, hkept'⟩
    rw [head?_append, hfirst, Option.some_or]

/-- **The map after any rows** has one entry for each tuple of group cells, and in it
each function has accumulated the rows of that group. -/
theorem GroupRS.grouped_rows (hrs : rs.WellFormed)
    (hapart : ∀ a ∈ rs.aggregates, a.index ∉ rs.grpIndex)
    (hfits : ∀ row ∈ rows, rs.Fits types row) :
    ∃ map, rs.addResults funcs rows = .ok map ∧
      Grouped rs.grpKey (rs.HoldsRows funcs types) rows map := by
  induction rows using reverseRecOn with
  | nil => exact ⟨[], rfl, Grouped.nil⟩
  | append_singleton rows row ih =>
    rw [forall_mem_concat] at hfits
    obtain ⟨map, hrun, hgrouped⟩ := ih hfits.1
    obtain ⟨map', hadd, hgrouped'⟩ := addResult_grouped hgrouped hrs hapart hfits.2
    refine ⟨map', ?_, hgrouped'⟩
    rw [addResults, foldlM_append]
    rw [addResults] at hrun
    simp only [hrun, bind, Except.bind, foldlM_cons, foldlM_nil, hadd]
    rfl

end Rows

end Mile.Execute
