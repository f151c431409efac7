/-
  Mile.Merge.Distinct
  ───────────────────
  **SELECT DISTINCT** (`plan/SqlAnalyzer.java`, `SelectStep.java`, `OutputStep.java`).

  The nodes answer with the distinct tuples of the selected columns and those of ORDER BY.  The
  mergeserver puts them into a set and writes the selected columns.
-/
import Mile.Merge.Plan

namespace Mile.Merge

open Lib Common List

/-! ## §1. What is asked, and what is wanted. -/

/-- The records are the distinct tuples of some columns of some rows, each once. -/
structure DistinctTuples (fields : List FieldDesc) (rows : List Row) (records : List Record) :
    Prop where
  nodup : (records.map Record.data).Nodup
  width : ∀ record ∈ records, record.data.length = fields.length
  mem_iff : ∀ t, t ∈ records.map Record.data ↔ ∃ row ∈ rows, t = tuple fields row

/-- A node: its matching rows, and the records it answers with. -/
structure Node where
  rows : List Row
  answer : List Record

/-- Rows of which `SELECT DISTINCT` can tell which selected columns are the same. -/
def Separated (stmt : QueryStatement) (rows : List Row) : Prop :=
  if stmt.orderDescs = [] then stmt.selectFields.length = 1 ∨ rows = []
  else ∀ row ∈ rows, ∀ row' ∈ rows, (∀ name ∈ stmt.selectColumns, row name = row' name) →
    ∀ name ∈ stmt.orderColumns, row name = row' name

theorem tuple_eq_iff {fields : List FieldDesc} {row row' : Row} :
    tuple fields row = tuple fields row' ↔
      ∀ name ∈ fields.map FieldDesc.fieldName, row name = row' name := by
  simp [tuple]

/-! ## §2. The set. -/

variable {set : List Record}

theorem addRecord_nodup (record : Record)
    (h : (set.map Record.data).Nodup) : ((addRecord set record).map Record.data).Nodup := by
  unfold addRecord
  split_ifs with hin
  · exact h
  · have hnot : record.data ∉ set.map Record.data := by
      simpa [mem_map] using hin
    rw [map_append, nodup_append]
    refine ⟨h, by simp, ?_⟩
    intro t ht t' ht'
    rw [map_singleton, mem_singleton] at ht'
    rintro rfl
    exact hnot (ht' ▸ ht)

theorem mem_addRecord {record : Record} {t : List Cell} :
    t ∈ (addRecord set record).map Record.data ↔ t ∈ set.map Record.data ∨ t = record.data := by
  unfold addRecord
  split_ifs with hin
  · refine ⟨.inl, ?_⟩
    rintro (ht | rfl)
    · exact ht
    · simpa [mem_map] using hin
  · simp

theorem foldl_addRecord (records : List Record) (h : (set.map Record.data).Nodup) :
    ((records.foldl addRecord set).map Record.data).Nodup ∧
      ∀ t, t ∈ (records.foldl addRecord set).map Record.data ↔
        t ∈ set.map Record.data ∨ t ∈ records.map Record.data := by
  induction records generalizing set with
  | nil => exact ⟨h, fun t => by simp⟩
  | cons record records ih =>
    obtain ⟨hnodup, hmem⟩ := ih (addRecord_nodup record h)
    refine ⟨hnodup, fun t => ?_⟩
    rw [foldl_cons, hmem, mem_addRecord, map_cons, mem_cons, or_assoc]

variable {stmt : QueryStatement} {nodes : List Node}

/-- **The set of a DISTINCT query has the distinct tuples of the columns that the nodes
were asked for.** -/
theorem selectStep_distinct (order : HashOrder) (haccess : stmt.accessType = .commonDistinct)
    (hnodes : ∀ node ∈ nodes, DistinctTuples stmt.rewrite.selectFields node.rows node.answer) :
    ∃ records,
      selectStep order stmt.rewrite (nodes.map fun node => some node.answer) = .set records ∧
      DistinctTuples stmt.rewrite.selectFields (nodes.flatMap Node.rows) records := by
  have hrewrite : stmt.rewrite.accessType = .commonDistinct := haccess
  set received := (nodes.map fun node => some node.answer).flatMap fun message => message.getD []
    with hreceived
  have hflat : received = nodes.flatMap Node.answer := by
    rw [hreceived, flatMap_map]
    rfl
  have hempty : (([] : List Record).map Record.data).Nodup := nodup_nil
  obtain ⟨hnodup, hmem⟩ := foldl_addRecord received hempty
  have hperm := order.perm (received.foldl addRecord [])
  refine ⟨order.visit (received.foldl addRecord []), ?_, ?_, ?_, ?_⟩
  · simp only [selectStep, hrewrite]
    rfl
  · exact ((hperm.map Record.data).nodup_iff).mpr hnodup
  · intro record hrecord
    have hdata : record.data ∈ received.map Record.data := by
      have hin := mem_map_of_mem (f := Record.data) (hperm.mem_iff.mp hrecord)
      simpa using (hmem record.data).mp hin
    rw [hflat] at hdata
    obtain ⟨r, hr, hrdata⟩ := mem_map.mp hdata
    obtain ⟨node, hnode, hanswer⟩ := mem_flatMap.mp hr
    rw [← hrdata]
    exact (hnodes node hnode).width r hanswer
  · intro t
    rw [(hperm.map Record.data).mem_iff, hmem, hflat]
    simp only [map_nil, not_mem_nil, false_or, map_flatMap, mem_flatMap]
    constructor
    · rintro ⟨node, hnode, ht⟩
      obtain ⟨row, hrow, rfl⟩ := ((hnodes node hnode).mem_iff t).mp ht
      exact ⟨row, ⟨node, hnode, hrow⟩, rfl⟩
    · rintro ⟨row, ⟨node, hnode, hrow⟩, rfl⟩
      exact ⟨node, hnode, ((hnodes node hnode).mem_iff _).mpr ⟨row, hrow, rfl⟩⟩

variable {fields : List FieldDesc} {rows : List Row} {records : List Record}

theorem DistinctTuples.length_le (h : DistinctTuples fields rows records) :
    records.length ≤ rows.length := by
  have hsubset : records.map Record.data ⊆ rows.map (tuple fields) := by
    intro t ht
    obtain ⟨row, hrow, rfl⟩ := (h.mem_iff t).mp ht
    exact mem_map_of_mem hrow
  have hle := (h.nodup.subperm hsubset).length_le
  simpa using hle

theorem DistinctTuples.perm
    {records' : List Record} (h : DistinctTuples fields rows records)
    (hperm : records'.Perm records) : DistinctTuples fields rows records' where
  nodup := ((hperm.map Record.data).nodup_iff).mpr h.nodup
  width record hrecord := h.width record (hperm.mem_iff.mp hrecord)
  mem_iff t := by rw [(hperm.map Record.data).mem_iff, h.mem_iff]

/-! ## §3. What is written. -/

def QueryStatement.selected (stmt : QueryStatement) (data : List Cell) : List Cell :=
  stmt.positions.map fun i => (data[i]?).getD .null

theorem selected_tuple (h : stmt.PlainColumns) (row : Row) :
    stmt.selected (tuple stmt.rewrite.selectFields row) = tuple stmt.selectFields row := by
  rw [QueryStatement.selected, QueryStatement.positions, map_map]
  refine map_congr_left fun field hfield => ?_
  have hcell := getCell_tuple (QueryStatement.select_mem_rewrite h field hfield) row
  unfold getCell at hcell
  split at hcell
  · next cell hget =>
      cases hcell
      rw [Function.comp_apply, hget]
      rfl
  · cases hcell

theorem DistinctTuples.exists_row (h : DistinctTuples fields rows records) {record : Record}
    (hrecord : record ∈ records) : ∃ row ∈ rows, record.data = tuple fields row :=
  (h.mem_iff record.data).mp (mem_map_of_mem hrecord)

section

variable (h : stmt.PlainColumns)

include h

theorem tuple_rewrite_eq_iff {row row' : Row} :
    tuple stmt.rewrite.selectFields row = tuple stmt.rewrite.selectFields row' ↔
      (∀ name ∈ stmt.selectColumns, row name = row' name) ∧
        ∀ name ∈ stmt.orderColumns, row name = row' name := by
  have hnames : ∀ name, name ∈ stmt.rewrite.selectFields.map FieldDesc.fieldName ↔
      name ∈ stmt.selectColumns ∨ name ∈ stmt.orderColumns := by
    intro name
    rw [← QueryStatement.mem_rewrite_select h]
    simp only [mem_map]
    refine exists_congr fun field => and_congr_right fun hfield => ?_
    rw [(QueryStatement.rewrite_select_plain h field hfield).key]
    simp
  rw [tuple_eq_iff]
  simp only [hnames, or_imp, forall_and]

section

variable (hrecords : DistinctTuples stmt.rewrite.selectFields rows records)

include hrecords

theorem outputStep_list (hlimit : records.length ≤ stmt.limit) :
    outputStep stmt.positions 0 stmt.limit (.list records) =
      .ok (records.map fun r => { r with data := stmt.selected r.data }) := by
  have hup : ¬stmt.limit < records.length := by omega
  simp only [outputStep, ResultData.records, Nat.not_lt_zero, if_false, hup, take_length, drop_zero]
  have hmap := @mapM_map_ok Record Record Fault Record (outputRecord stmt.positions) id
    (fun r => { r with data := stmt.selected r.data }) records ?_
  · simpa using hmap
  · intro record hrecord
    obtain ⟨row, -, hdata⟩ := hrecords.exists_row hrecord
    simp only [id, outputRecord, hdata, QueryStatement.mapM_getCell_positions h, selected_tuple h,
      bind, Except.bind, pure, Except.pure]

theorem outputStep_set (hlimit : records.length ≤ stmt.limit) :
    outputStep stmt.positions 0 stmt.limit (.set records) =
      .ok (records.flatMap fun r =>
        (stmt.selected r.data).map fun c => { r with data := [c] }) := by
  have hup : ¬stmt.limit < records.length := by omega
  have hmap := @mapM_map_ok Record Record Fault (List Record) (outputColumns stmt.positions) id
    (fun r => (stmt.selected r.data).map fun c => { r with data := [c] }) records ?_
  · rw [map_id] at hmap
    simp only [outputStep, ResultData.records, Nat.not_lt_zero, if_false, hup, Nat.sub_zero,
      take_length, hmap, bind, Except.bind, pure, Except.pure]
    rfl
  · intro record hrecord
    obtain ⟨row, -, hdata⟩ := hrecords.exists_row hrecord
    simp only [id, outputColumns, hdata]
    have hcells :
        (tuple stmt.selectFields row).map (fun c => ({ record with data := [c] } : Record)) =
        stmt.selectFields.map fun field =>
          { record with data := [.value (row field.fieldName)] } := map_map ..
    rw [selected_tuple h, hcells, QueryStatement.positions]
    refine mapM_map_ok fun field hfield => ?_
    rw [getCell_tuple (QueryStatement.select_mem_rewrite h field hfield) row]
    rfl

/-- The branch of `OutputStep` for lists. -/
theorem list_distinct_iff :
    DistinctTuples stmt.selectFields rows
        (records.map fun r => { r with data := stmt.selected r.data }) ↔
      ∀ row ∈ rows, ∀ row' ∈ rows, (∀ name ∈ stmt.selectColumns, row name = row' name) →
        ∀ name ∈ stmt.orderColumns, row name = row' name := by
  have hdata : ((records.map fun r : Record => { r with data := stmt.selected r.data }).map
      Record.data) = (records.map Record.data).map stmt.selected := by
    simp [map_map]
  constructor
  · intro hdistinct row hrow row' hrow' hselected
    have hinj := hdistinct.nodup
    rw [hdata] at hinj
    -- the tuples of both rows are there, and the selected columns are the same
    have htuple := inj_on_of_nodup_map hinj ((hrecords.mem_iff _).mpr ⟨row, hrow, rfl⟩)
      ((hrecords.mem_iff _).mpr ⟨row', hrow', rfl⟩) (by
        rw [selected_tuple h, selected_tuple h]
        exact tuple_eq_iff.mpr hselected)
    exact ((tuple_rewrite_eq_iff h).mp htuple).2
  · intro hseparated
    refine ⟨?_, ?_, ?_⟩
    · rw [hdata]
      refine hrecords.nodup.map_on ?_
      intro t ht t' ht' heq
      obtain ⟨row, hrow, rfl⟩ := (hrecords.mem_iff t).mp ht
      obtain ⟨row', hrow', rfl⟩ := (hrecords.mem_iff t').mp ht'
      rw [selected_tuple h, selected_tuple h] at heq
      have hselected := tuple_eq_iff.mp heq
      exact (tuple_rewrite_eq_iff h).mpr ⟨hselected, hseparated row hrow row' hrow' hselected⟩
    · intro record hrecord
      obtain ⟨r, -, rfl⟩ := mem_map.mp hrecord
      simp [QueryStatement.selected, QueryStatement.positions]
    · intro t
      rw [hdata]
      constructor
      · intro ht
        obtain ⟨t', ht', rfl⟩ := mem_map.mp ht
        obtain ⟨row, hrow, rfl⟩ := (hrecords.mem_iff t').mp ht'
        exact ⟨row, hrow, selected_tuple h row⟩
      · rintro ⟨row, hrow, rfl⟩
        refine mem_map.mpr ⟨_, (hrecords.mem_iff _).mpr ⟨row, hrow, rfl⟩, selected_tuple h row⟩

end

/-- The branch of `OutputStep` for sets. -/
theorem set_distinct_iff (horder : stmt.orderColumns = [])
    (hrecords : DistinctTuples stmt.rewrite.selectFields rows records) :
    DistinctTuples stmt.selectFields rows
        (records.flatMap fun r => (stmt.selected r.data).map fun c => { r with data := [c] }) ↔
      stmt.selectFields.length = 1 ∨ rows = [] := by
  constructor
  · intro hdistinct
    by_cases hrows : rows = []
    · exact .inr hrows
    left
    -- some record comes out, and it has one value
    obtain ⟨row, hrow⟩ := exists_mem_of_ne_nil _ hrows
    obtain ⟨out, hout, -⟩ := mem_map.mp ((hdistinct.mem_iff _).mpr ⟨row, hrow, rfl⟩)
    have hwidth := hdistinct.width out hout
    obtain ⟨r, -, hin⟩ := mem_flatMap.mp hout
    obtain ⟨c, -, rfl⟩ := mem_map.mp hin
    exact hwidth.symm
  · rintro (hone | rfl)
    · obtain ⟨field, hfield⟩ := length_eq_one_iff.mp hone
      have hcolumns : ∀ data : List Cell, ∃ c, stmt.selected data = [c] := by
        intro data
        rw [QueryStatement.selected, QueryStatement.positions, hfield]
        exact ⟨_, rfl⟩
      -- the only column of a record is the record
      have hrecord : (records.flatMap fun r : Record => (stmt.selected r.data).map fun c =>
          ({ r with data := [c] } : Record)) =
          records.map fun r => { r with data := stmt.selected r.data } := by
        rw [← flatMap_singleton' (records.map _), flatMap_map]
        refine flatMap_congr fun r _ => ?_
        obtain ⟨c, hc⟩ := hcolumns r.data
        rw [hc]
        rfl
      rw [hrecord, list_distinct_iff h hrecords]
      intro row _ row' _ _ name hname
      rw [horder] at hname
      simp at hname
    · have hnil : records = [] := by
        refine eq_nil_iff_forall_not_mem.mpr fun r hr => ?_
        obtain ⟨row, hrow, -⟩ := hrecords.exists_row hr
        simp at hrow
      rw [hnil]
      exact ⟨by simp, by simp, by simp⟩

/-! ## §4. Which rows can be sorted. -/

end

/-- `compareTo` throws: the values have different classes. -/
def ClassesDiffer (v w : Value) : Prop :=
  v.comparable.isSome ∧ w.comparable.isSome ∧ v.comparable ≠ w.comparable

/-- The comparator throws for the two rows: they agree in the first columns, and
in the next one they have values of different classes. -/
def Clash : List String → Row → Row → Prop
  | [], _, _ => False
  | name :: names, a, b => ClassesDiffer (a name) (b name) ∨ a name = b name ∧ Clash names a b

/-- No two rows have the comparator of ORDER BY throw. -/
def Sortable (stmt : QueryStatement) (rows : List Row) : Prop :=
  ∀ row ∈ rows, ∀ row' ∈ rows, ¬Clash stmt.orderColumns row row'

/-- The value comes before the other one: `null` comes first. -/
def Value.Less (v w : Value) : Prop :=
  w ≠ .null ∧ (v = .null ∨ v.comparable = w.comparable ∧ v.place < w.place)

/-- The first row does not come behind the second one. -/
def RowLe : List (String × OrderTypes) → Row → Row → Prop
  | [], _, _ => True
  | (name, type) :: orders, a, b =>
    (if type = .desc then (b name).Less (a name) else (a name).Less (b name)) ∨
      a name = b name ∧ RowLe orders a b

theorem Value.Less.trans {u v w : Value} (huv : u.Less v) (hvw : v.Less w) : u.Less w := by
  refine ⟨hvw.1, huv.2.imp_right fun ⟨hclass, hplace⟩ => ?_⟩
  obtain ⟨hclass', hplace'⟩ := hvw.2.resolve_left huv.1
  exact ⟨hclass.trans hclass', hplace.trans hplace'⟩

theorem Value.Less.ne {v w : Value} (h : v.Less w) : v ≠ w ∧ ¬ClassesDiffer v w := by
  refine ⟨?_, fun hdiffer => ?_⟩
  · rintro rfl
    rcases h.2 with hnull | ⟨-, hlt⟩
    · exact h.1 hnull
    · exact lt_irrefl _ hlt
  · rcases h.2 with rfl | ⟨hclass, -⟩
    · exact absurd hdiffer.1 (by decide)
    · exact hdiffer.2.2 hclass

theorem ClassesDiffer.symm {v w : Value} (h : ClassesDiffer v w) : ClassesDiffer w v :=
  ⟨h.2.1, h.1, h.2.2.symm⟩

/-- **Two values of a column.**  There is no sign if one of them is an array of
bytes. -/
theorem compareCells_cases (v w : Value) :
    (compareCells (.value v) (.value w) = .ok (some 0) ∧ v = w) ∨
    (compareCells (.value v) (.value w) = .ok (some (-1)) ∧ v.Less w) ∨
    (compareCells (.value v) (.value w) = .ok (some 1) ∧ w.Less v) ∨
    (compareCells (.value v) (.value w) = .error .classCast ∧ ClassesDiffer v w) ∨
    (compareCells (.value v) (.value w) = .ok none ∧
      ((v ≠ .null ∧ v.comparable = none) ∨ w ≠ .null ∧ w.comparable = none)) := by
  unfold compareCells
  simp only [Cell.value.injEq]
  by_cases hv : v = .null
  · by_cases hw : w = .null
    · exact .inl ⟨if_pos ⟨hv, hw⟩, hv.trans hw.symm⟩
    · exact .inr (.inl ⟨by rw [if_neg (fun h => hw h.2), if_pos hv], hw, .inl hv⟩)
  rw [if_neg (fun h => hv h.1), if_neg hv]
  by_cases hw : w = .null
  · exact .inr (.inr (.inl ⟨if_pos hw, hv, .inl hw⟩))
  rw [if_neg hw]
  cases hcv : v.comparable with
  | none => exact .inr (.inr (.inr (.inr ⟨rfl, .inl ⟨hv, rfl⟩⟩)))
  | some c =>
    cases hcw : w.comparable with
    | none => exact .inr (.inr (.inr (.inr ⟨rfl, .inr ⟨hw, rfl⟩⟩)))
    | some c' =>
      by_cases hclass : c = c'
      · subst hclass
        have hcompare := Value.compareTo_eq hcv hcw
        simp only [Option.isSome_some, Bool.and_self, if_true, hcompare, bind, Except.bind, pure,
          Except.pure]
        rcases lt_trichotomy v.place w.place with hlt | heq | hgt
        · rw [comp_eq_neg_one.mpr hlt]
          exact .inr (.inl ⟨rfl, hw, .inr ⟨hcv.trans hcw.symm, hlt⟩⟩)
        · rw [comp_eq_zero.mpr heq]
          exact .inl ⟨rfl, Value.place_injective hcv hcw heq⟩
        · rw [comp_eq_one.mpr hgt]
          exact .inr (.inr (.inl ⟨rfl, hv, .inr ⟨hcw.trans hcv.symm, hgt⟩⟩))
      · have hne : v.comparable ≠ w.comparable := by
          rw [hcv, hcw]
          exact fun h => hclass (Option.some.inj h)
        have hcompare : v.compareTo w = .error .classCast := by
          rw [Value.compareTo, if_neg hw, if_pos hne]
        refine .inr (.inr (.inr (.inl ⟨?_, by simp [hcv], by simp [hcw], hne⟩)))
        simp only [Option.isSome_some, Bool.and_self, if_true, hcompare, bind, Except.bind]

section Compare

variable {orders : List OrderDesc} {a b c : Row}

theorem Clash.symm {names : List String} (h : Clash names a b) : Clash names b a := by
  induction names with
  | nil => exact h
  | cons name names ih => exact h.imp ClassesDiffer.symm fun ⟨heq, h⟩ => ⟨heq.symm, ih h⟩

theorem Clash.congr {names : List String} {a' b' : Row} (ha : ∀ name ∈ names, a name = a' name)
    (hb : ∀ name ∈ names, b name = b' name) (h : Clash names a b) : Clash names a' b' := by
  induction names with
  | nil => exact h
  | cons name names ih =>
    obtain ⟨hahead, hatail⟩ := forall_mem_cons.mp ha
    obtain ⟨hbhead, hbtail⟩ := forall_mem_cons.mp hb
    unfold Clash at h ⊢
    rw [← hahead, ← hbhead]
    exact h.imp_right fun ⟨heq, h⟩ => ⟨heq, ih hatail hbtail h⟩

theorem not_clash_self {names : List String} : ¬Clash names a a := by
  induction names with
  | nil => exact id
  | cons name names ih =>
    rintro (h | ⟨-, h⟩)
    · exact h.2.2 rfl
    · exact ih h

/-- Rows in order do not clash. -/
theorem RowLe.not_clash {orders : List (String × OrderTypes)} (h : RowLe orders a b) :
    ¬Clash (orders.map Prod.fst) a b := by
  induction orders with
  | nil => exact id
  | cons order orders ih =>
    rcases h with hless | ⟨heq, hle⟩
    · have hne : a order.1 ≠ b order.1 ∧ ¬ClassesDiffer (a order.1) (b order.1) := by
        split_ifs at hless
        · exact ⟨hless.ne.1.symm, fun h => hless.ne.2 h.symm⟩
        · exact hless.ne
      rintro (h | ⟨h, -⟩)
      · exact hne.2 h
      · exact hne.1 h
    · rintro (h | ⟨-, h⟩)
      · exact h.2.2 (congrArg _ heq)
      · exact ih hle h

theorem RowLe.trans {orders : List (String × OrderTypes)} (hab : RowLe orders a b)
    (hbc : RowLe orders b c) : RowLe orders a c := by
  induction orders with
  | nil => exact trivial
  | cons order orders ih =>
    rcases hab with hab | ⟨heq, hab⟩
    · rcases hbc with hbc | ⟨heq, -⟩
      · left
        split_ifs at hab hbc ⊢
        · exact hbc.trans hab
        · exact hab.trans hbc
      · exact .inl (heq ▸ hab)
    · rcases hbc with hbc | ⟨heq', hbc⟩
      · exact .inl (heq ▸ hbc)
      · exact .inr ⟨heq.trans heq', ih hab hbc⟩

variable (hfields : ∀ order ∈ orders, order.field.key ∈ fields.map FieldDesc.key)

include hfields

/-- The comparator only fails for rows that clash. -/
theorem orderCompare_ok
    (hclash : ¬Clash (orders.map fun order => order.field.fieldName) a b) :
    ∃ r, orderCompare (orders.map fun order => (position fields order.field, order.type))
      (tuple fields a) (tuple fields b) = .ok r := by
  induction orders with
  | nil => exact ⟨0, rfl⟩
  | cons order orders ih =>
    obtain ⟨hhead, htail⟩ := forall_mem_cons.mp hfields
    obtain ⟨hdiffer, hrest⟩ := not_or.mp hclash
    simp only [map_cons, orderCompare, getCell_tuple hhead, bind, Except.bind]
    rcases compareCells_cases (a order.field.fieldName) (b order.field.fieldName) with
      ⟨hcells, heq⟩ | ⟨hcells, -⟩ | ⟨hcells, -⟩ | ⟨-, hno⟩ | ⟨hcells, -⟩
    · simp only [hcells, if_true]
      exact ih htail fun h => hrest ⟨heq, h⟩
    · rw [hcells]
      exact ⟨_, rfl⟩
    · rw [hcells]
      exact ⟨_, rfl⟩
    · exact absurd hno hdiffer
    · rw [hcells]
      exact ⟨_, rfl⟩

/-- What the comparator says about rows without arrays of bytes. -/
theorem orderCompare_rowLe
    (ha : ∀ name ∈ orders.map fun order => order.field.fieldName,
      a name = .null ∨ (a name).comparable.isSome)
    (hb : ∀ name ∈ orders.map fun order => order.field.fieldName,
      b name = .null ∨ (b name).comparable.isSome) {r : Int}
    (hr : orderCompare (orders.map fun order => (position fields order.field, order.type))
      (tuple fields a) (tuple fields b) = .ok r) :
    (r ≤ 0 → RowLe (orders.map fun order => (order.field.fieldName, order.type)) a b) ∧
      (0 < r → RowLe (orders.map fun order => (order.field.fieldName, order.type)) b a) := by
  induction orders with
  | nil => exact ⟨fun _ => trivial, fun _ => trivial⟩
  | cons order orders ih =>
    obtain ⟨hhead, htail⟩ := forall_mem_cons.mp hfields
    obtain ⟨haHead, haTail⟩ := forall_mem_cons.mp ha
    obtain ⟨hbHead, hbTail⟩ := forall_mem_cons.mp hb
    simp only [map_cons, orderCompare, getCell_tuple hhead, bind, Except.bind] at hr
    rcases compareCells_cases (a order.field.fieldName) (b order.field.fieldName) with
      ⟨hcells, heq⟩ | ⟨hcells, hless⟩ | ⟨hcells, hless⟩ | ⟨hcells, -⟩ | ⟨-, hbytes⟩
    · simp only [hcells, if_true] at hr
      obtain ⟨hle, hgt⟩ := ih htail haTail hbTail hr
      exact ⟨fun h => .inr ⟨heq, hle h⟩, fun h => .inr ⟨heq.symm, hgt h⟩⟩
    · rw [hcells] at hr
      cases htype : order.type with
      | asc =>
        simp only [htype] at hr
        cases hr
        exact ⟨fun _ => .inl (by simpa [htype] using hless), fun h => absurd h (by decide)⟩
      | desc =>
        simp only [htype] at hr
        cases hr
        exact ⟨fun h => absurd h (by decide), fun _ => .inl (by simpa [htype] using hless)⟩
    · rw [hcells] at hr
      cases htype : order.type with
      | asc =>
        simp only [htype] at hr
        cases hr
        exact ⟨fun h => absurd h (by decide), fun _ => .inl (by simpa [htype] using hless)⟩
      | desc =>
        simp only [htype] at hr
        cases hr
        exact ⟨fun _ => .inl (by simpa [htype] using hless), fun h => absurd h (by decide)⟩
    · rw [hcells] at hr
      cases hr
    · rcases hbytes with ⟨hnull, hnone⟩ | ⟨hnull, hnone⟩
      · exact absurd (haHead.resolve_left hnull) (by simp [hnone])
      · exact absurd (hbHead.resolve_left hnull) (by simp [hnone])

end Compare

/-! ## §5. The plan. -/

section Sorted

variable (h : stmt.PlainColumns) (horder : stmt.rewrite.orderFields ≠ [])
  (hrecords : DistinctTuples stmt.rewrite.selectFields rows records)

include h horder

theorem orderData_eq : stmt.orderData (.set records) = (sortM (fun a b => orderCompare
    (stmt.rewrite.orderFields.map fun order =>
      (position stmt.rewrite.selectFields order.field, order.type)) a.data b.data) records).map
        .list := by
  simp only [QueryStatement.orderData, if_neg horder, QueryStatement.orderIndex_eq h horder,
    orderStep, ResultData.records, bind, Except.bind]
  cases sortM (fun a b => orderCompare (stmt.rewrite.orderFields.map fun order =>
    (position stmt.rewrite.selectFields order.field, order.type)) a.data b.data) records <;> rfl

theorem orderData_perm {data : ResultData} (hdata : stmt.orderData (.set records) = .ok data) :
    ∃ sorted, data = .list sorted ∧ sorted.Perm records := by
  rw [orderData_eq h horder] at hdata
  cases hsort : sortM (fun a b : Record => orderCompare (stmt.rewrite.orderFields.map fun order =>
      (position stmt.rewrite.selectFields order.field, order.type)) a.data b.data) records with
  | error e =>
    rw [hsort] at hdata
    cases hdata
  | ok sorted =>
    rw [hsort] at hdata
    exact ⟨sorted, (Except.ok.inj hdata).symm, sortM_perm hsort⟩

include hrecords

/-- Rows of which no two clash are sorted. -/
theorem orderData_ok (hclash : ∀ row ∈ rows, ∀ row' ∈ rows, ¬Clash stmt.orderColumns row row') :
    ∃ sorted, stmt.orderData (.set records) = .ok (.list sorted) := by
  have hcompare : ∀ a ∈ records, ∀ b ∈ records, ∃ r, orderCompare
      (stmt.rewrite.orderFields.map fun order =>
        (position stmt.rewrite.selectFields order.field, order.type)) a.data b.data = .ok r := by
    intro a ha b hb
    obtain ⟨row, hrow, hdata⟩ := hrecords.exists_row ha
    obtain ⟨row', hrow', hdata'⟩ := hrecords.exists_row hb
    rw [hdata, hdata']
    refine orderCompare_ok (QueryStatement.order_mem_rewrite h) ?_
    rw [QueryStatement.rewrite_order_names]
    exact hclash row hrow row' hrow'
  obtain ⟨sorted, hsorted⟩ := sortM_ok hcompare
  rw [orderData_eq h horder, hsorted]
  exact ⟨sorted, rfl⟩

/-- Without arrays of bytes, no two rows of a list that was sorted clash. -/
theorem not_clash_of_orderData {data : ResultData}
    (hvalues : ∀ row ∈ rows, ∀ name ∈ stmt.orderColumns,
      row name = .null ∨ (row name).comparable.isSome)
    (hdata : stmt.orderData (.set records) = .ok data) :
    ∀ row ∈ rows, ∀ row' ∈ rows, ¬Clash stmt.orderColumns row row' := by
  rw [orderData_eq h horder] at hdata
  cases hsort : sortM (fun a b : Record => orderCompare (stmt.rewrite.orderFields.map fun order =>
      (position stmt.rewrite.selectFields order.field, order.type)) a.data b.data) records with
  | error e =>
    rw [hsort] at hdata
    cases hdata
  | ok sorted =>
    -- a row for each record
    have hexists : ∀ r : Record, ∃ row, r ∈ records →
        row ∈ rows ∧ r.data = tuple stmt.rewrite.selectFields row := by
      intro r
      by_cases hr : r ∈ records
      · obtain ⟨row, hrow, hdata⟩ := hrecords.exists_row hr
        exact ⟨row, fun _ => ⟨hrow, hdata⟩⟩
      · exact ⟨fun _ => .null, fun hr' => absurd hr' hr⟩
    choose rowOf hrowOf using hexists
    have hnames := @QueryStatement.rewrite_order_names stmt
    have hpairwise : sorted.Pairwise fun a b => RowLe stmt.orders (rowOf a) (rowOf b) := by
      refine sortM_pairwise (fun _ _ _ => RowLe.trans) (fun x hx y hy r hr => ?_) hsort
      rw [(hrowOf x hx).2, (hrowOf y hy).2] at hr
      refine orderCompare_rowLe (QueryStatement.order_mem_rewrite h) ?_ ?_ hr
      · rw [hnames]
        exact hvalues _ (hrowOf x hx).1
      · rw [hnames]
        exact hvalues _ (hrowOf y hy).1
    have hall : ∀ x ∈ records, ∀ y ∈ records, ¬Clash stmt.orderColumns (rowOf x) (rowOf y) := by
      have hcolumns : stmt.orders.map Prod.fst = stmt.orderColumns := by
        rw [QueryStatement.orders, map_map, ← hnames]
        rfl
      have hno : sorted.Pairwise fun x y => ¬Clash stmt.orderColumns (rowOf x) (rowOf y) :=
        hpairwise.imp fun hle => hcolumns ▸ hle.not_clash
      have hsymm : Std.Symm fun x y => ¬Clash stmt.orderColumns (rowOf x) (rowOf y) :=
        ⟨fun x y hxy hclash => hxy hclash.symm⟩
      intro x hx y hy
      have hperm := sortM_perm hsort
      exact hno.forall_of_forall (fun _ _ => not_clash_self) (hperm.mem_iff.mpr hx)
        (hperm.mem_iff.mpr hy)
    intro row hrow row' hrow' hclash
    obtain ⟨x, hx, hxdata⟩ := mem_map.mp ((hrecords.mem_iff _).mpr ⟨row, hrow, rfl⟩)
    obtain ⟨y, hy, hydata⟩ := mem_map.mp ((hrecords.mem_iff _).mpr ⟨row', hrow', rfl⟩)
    -- the rows of the two records agree with these
    have hsame : ∀ {r : Record} {u : Row}, r ∈ records →
        r.data = tuple stmt.rewrite.selectFields u → ∀ name ∈ stmt.orderColumns,
          u name = rowOf r name := fun hr hu =>
      ((tuple_rewrite_eq_iff h).mp (hu.symm.trans (hrowOf _ hr).2)).2
    exact hall x hx y hy (hclash.congr (hsame hx hxdata) (hsame hy hydata))

end Sorted

/-- **A `SELECT DISTINCT`** whose nodes answer with the distinct tuples of what they
are asked for, with a limit not below the number of the matching rows.  There is
an output if no two rows clash in the columns of ORDER BY; without arrays of bytes
there, only then.  What comes out are the distinct tuples of the selected columns
if and only if the rows are separated. -/
theorem distinct_iff (doubles : DoubleFuncs) (order : HashOrder) (stmt : QueryStatement)
    (nodes : List Node) (h : stmt.PlainColumns) (haccess : stmt.accessType = .commonDistinct)
    (hoffset : stmt.offset = 0) (hlimit : (nodes.flatMap Node.rows).length ≤ stmt.limit)
    (hnodes : ∀ node ∈ nodes,
      DistinctTuples stmt.rewrite.selectFields node.rows node.answer) :
    let rows := nodes.flatMap Node.rows
    let outcome := stmt.plan doubles order (nodes.map fun node => some node.answer)
    (Sortable stmt rows → ∃ out, outcome = .ok out) ∧
      ((∀ row ∈ rows, ∀ name ∈ stmt.orderColumns,
          row name = .null ∨ (row name).comparable.isSome) →
        (∃ out, outcome = .ok out) → Sortable stmt rows) ∧
      ∀ out, outcome = .ok out →
        (DistinctTuples stmt.selectFields rows out ↔ Separated stmt rows) := by
  intro rows outcome
  obtain ⟨records, hselect, hrecords⟩ := selectStep_distinct order haccess hnodes
  have hlength : records.length ≤ stmt.limit := hrecords.length_le.trans hlimit
  have hplan : outcome =
      (stmt.orderData (.set records)).bind (outputStep stmt.positions 0 stmt.limit) := by
    show stmt.plan doubles order _ = _
    rw [QueryStatement.plan_eq doubles order h (by omega : stmt.offset ≤ stmt.limit), hselect,
      hoffset]
  clear_value outcome
  have hdescs : stmt.rewrite.orderFields = [] ↔ stmt.orderDescs = [] := by
    rw [QueryStatement.rewrite_orderFields, map_eq_nil_iff]
  unfold Separated
  by_cases hnone : stmt.orderDescs = []
  · have hcolumns : stmt.orderColumns = [] := by
      rw [QueryStatement.orderColumns, hnone]
      rfl
    rw [QueryStatement.orderData, if_pos (hdescs.mpr hnone)] at hplan
    have hout := hplan.trans (outputStep_set h hrecords hlength)
    rw [if_pos hnone]
    refine ⟨fun _ => ⟨_, hout⟩, fun _ _ row _ row' _ => ?_, fun out hok => ?_⟩
    · rw [hcolumns]
      exact id
    · obtain rfl := Except.ok.inj (hout.symm.trans hok)
      exact set_distinct_iff h hcolumns hrecords
  · rw [if_neg hnone]
    have horder : stmt.rewrite.orderFields ≠ [] := mt hdescs.mp hnone
    -- whatever was sorted is written as a list
    have hwritten : ∀ data, stmt.orderData (.set records) = .ok data →
        ∃ sorted, DistinctTuples stmt.rewrite.selectFields rows sorted ∧
          outcome = .ok (sorted.map fun r => { r with data := stmt.selected r.data }) := by
      intro data hdata
      obtain ⟨sorted, rfl, hperm⟩ := orderData_perm h horder hdata
      refine ⟨sorted, hrecords.perm hperm, ?_⟩
      rw [hplan, hdata]
      exact outputStep_list h (hrecords.perm hperm) (hperm.length_eq.trans_le hlength)
    have hdata : ∀ out, outcome = .ok out → ∃ data, stmt.orderData (.set records) = .ok data := by
      intro out hok
      cases hsort : stmt.orderData (.set records) with
      | error e =>
        rw [hplan, hsort] at hok
        cases hok
      | ok data => exact ⟨data, rfl⟩
    refine ⟨fun hsortable => ?_, ?_, fun out hok => ?_⟩
    · obtain ⟨sorted, hsorted⟩ := orderData_ok h horder hrecords hsortable
      obtain ⟨_, _, hout⟩ := hwritten _ hsorted
      exact ⟨_, hout⟩
    · rintro hvalues ⟨out, hok⟩
      obtain ⟨data, hsort⟩ := hdata out hok
      exact not_clash_of_orderData h horder hrecords hvalues hsort
    · obtain ⟨data, hsort⟩ := hdata out hok
      obtain ⟨sorted, htuples, hout⟩ := hwritten data hsort
      obtain rfl := Except.ok.inj (hout.symm.trans hok)
      exact list_distinct_iff h htuples

def rowAB (a b : Int64) : Row := fun name =>
  if name = "a" then .long a else if name = "b" then .long b else .null

def numbers (ns : List Int64) : Record := ⟨0, ns.map fun n => .value (.long n)⟩

/-- `SELECT DISTINCT a FROM t ORDER BY b DESC`. -/
def distinctByB : QueryStatement where
  tableName := "t"
  accessType := .commonDistinct
  selectFields := [{ fieldName := "a" }]
  orderFields := [⟨{ fieldName := "b" }, .desc⟩]

theorem distinctByB_plain : distinctByB.PlainColumns where
  select := by simp [distinctByB, FieldDesc.Plain]; decide
  order := by simp [distinctByB, FieldDesc.Plain]; decide
  noGroup := rfl
  noHaving := rfl

/-- Two nodes; a row of the first is there twice, and once more on the second. -/
def nodesAB : List Node :=
  [⟨[rowAB 1 7, rowAB 2 8, rowAB 1 7], [numbers [1, 7], numbers [2, 8]]⟩,
    ⟨[rowAB 1 7], [numbers [1, 7]]⟩]

theorem distinct_iff_nodesAB :
    ∃ out,
      distinctByB.plan noDoubles fillOrder (nodesAB.map fun node => some node.answer) = .ok out ∧
      DistinctTuples distinctByB.selectFields (nodesAB.flatMap Node.rows) out := by
  have hcolumns : distinctByB.orderColumns = ["b"] := by decide +kernel
  have hselect : distinctByB.selectColumns = ["a"] := by decide +kernel
  have hfields : distinctByB.rewrite.selectFields =
      [{ fieldName := "a", aliseName := "a" }, { fieldName := "b", aliseName := "b" }] := by
    decide +kernel
  have hrows : nodesAB.flatMap Node.rows = [rowAB 1 7, rowAB 2 8, rowAB 1 7, rowAB 1 7] := rfl
  obtain ⟨hok, -, hdistinct⟩ := distinct_iff noDoubles fillOrder distinctByB nodesAB
    distinctByB_plain rfl rfl (by rw [hrows]; decide) (by
      rw [hfields]
      refine forall_mem_cons.mpr ⟨?_, forall_mem_cons.mpr ⟨?_, by simp⟩⟩
      · refine ⟨by decide +kernel, by simp [numbers], fun t => ?_⟩
        simp [numbers, tuple, rowAB]
        tauto
      · refine ⟨by decide +kernel, by simp [numbers], fun t => ?_⟩
        simp [numbers, tuple, rowAB])
  obtain ⟨out, hout⟩ := hok (by
    rw [Sortable, hrows, hcolumns]
    simp [Clash, ClassesDiffer, rowAB, Value.comparable])
  refine ⟨out, hout, (hdistinct out hout).mpr ?_⟩
  rw [Separated, if_neg (by decide +kernel), hrows, hcolumns, hselect]
  simp [rowAB]

/-- `SELECT DISTINCT a, b FROM t`. -/
def distinctAB : QueryStatement where
  tableName := "t"
  accessType := .commonDistinct
  selectFields := [{ fieldName := "a" }, { fieldName := "b" }]

/-- **Two columns without ORDER BY, and an ORDER BY on another column.**  The row
(1, 2) comes out as two records of one value.  The rows (1, 1) and (1, 2), ordered by
the second column, come out as the first column twice. -/
theorem distinct_not_distinct :
    (DistinctTuples distinctAB.rewrite.selectFields [rowAB 1 2] [numbers [1, 2]] ∧
      distinctAB.plan noDoubles fillOrder [some [numbers [1, 2]]] =
        .ok [numbers [1], numbers [2]] ∧
      ¬DistinctTuples distinctAB.selectFields [rowAB 1 2] [numbers [1], numbers [2]]) ∧
    DistinctTuples distinctByB.rewrite.selectFields [rowAB 1 1, rowAB 1 2]
      [numbers [1, 1], numbers [1, 2]] ∧
    distinctByB.plan noDoubles fillOrder [some [numbers [1, 1], numbers [1, 2]]] =
      .ok [numbers [1], numbers [1]] ∧
    ¬DistinctTuples distinctByB.selectFields [rowAB 1 1, rowAB 1 2] [numbers [1], numbers [1]] := by
  have hfields : distinctAB.rewrite.selectFields =
      [{ fieldName := "a", aliseName := "a" }, { fieldName := "b", aliseName := "b" }] := by
    decide +kernel
  have hfields' : distinctByB.rewrite.selectFields = distinctAB.rewrite.selectFields := by
    decide +kernel
  refine ⟨⟨?_, by decide +kernel, ?_⟩, ?_, by decide +kernel, ?_⟩
  · rw [hfields]
    refine ⟨by decide +kernel, by simp [numbers], fun t => ?_⟩
    simp [numbers, tuple, rowAB]
  · intro hdistinct
    have hwidth := hdistinct.width (numbers [1]) (by simp)
    exact absurd hwidth (by decide)
  · rw [hfields', hfields]
    refine ⟨by decide +kernel, by simp [numbers], fun t => ?_⟩
    simp [numbers, tuple, rowAB]
  · intro hdistinct
    exact absurd hdistinct.nodup (by decide +kernel)

end Mile.Merge
