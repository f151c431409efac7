/-
  Mile.Merge.Limit
  ────────────────
  **LIMIT AND OFFSET** (`plan/SqlAnalyzer.java`, `OrderStep.java`, `OutputStep.java`,
  `execute/OrderComparator.cpp`).

  Each node answers an ordered query with its first rows, in its own order.  The mergeserver
  orders what it gets by its own comparator, and writes the rows from the offset to the limit.
-/
import Mile.Merge.Plan
import Mile.Execute.OrderComparator

namespace Mile.Merge

open Lib Common Execute List

/-! ## §1. Values that both sides order alike. -/

/-- The docserver and the mergeserver agree on the order of two values. -/
abbrev Value.Agree (v w : Value) : Prop := compareLd v.lowData w.lowData = comp v.rank w.rank

theorem toSigned_toNat {w : Nat} (hw : 0 < w) (x : BitVec w) : toSigned w x.toNat = x.toInt := by
  have hpow : (2 : Nat) ^ w = 2 * 2 ^ (w - 1) := by
    rw [← pow_succ', Nat.sub_add_cancel hw]
  rw [toSigned, BitVec.toInt_eq_toNat_cond, hpow]
  by_cases h : x.toNat < 2 ^ (w - 1)
  · rw [if_pos h, if_pos (by omega)]
  · rw [if_neg h, if_neg (by omega)]
    push_cast [← hpow]
    rfl

theorem signedAt_leBytes {w : Nat} (hw : 0 < w) (x : BitVec (8 * w)) :
    signedAt w (leBytes w x.toNat) = x.toInt := by
  have hlt : x.toNat < 256 ^ w := by
    have h := x.isLt
    rwa [pow_mul] at h
  rw [signedAt, leAt, drop_zero, take_of_length_le (by simp), leNat_leBytes_of_lt hlt,
    toSigned_toNat (by omega)]

variable {v w : Value} {c : JavaClass}

theorem Value.rank_of_comparable (h : v.comparable = some c) : v.rank = 0 :: v.place := by
  have hnull : v ≠ .null := by
    rintro rfl
    cases h
  rw [Value.rank, if_neg hnull]

/-- An integer on the docserver. -/
theorem lowData_integer {t : FieldType} (hc : c.integerType = some t) (hv : v.comparable = some c) :
    v.lowData.type = t ∧ t.IsInteger ∧ orderKey t v.lowData.data = v.place := by
  have hkey : ∀ {t : FieldType} {data : Bytes} {n : Int}, t.IsInteger → data ≠ [] →
      integerAt t data = n → orderKey t data = [n] := by
    intro t data n ht hdata hn
    rw [orderKey, if_pos ht, if_neg hdata, hn]
  have hne : ∀ w n, 0 < w → leBytes w n ≠ [] := by
    intro w n hw hnil
    have hlen := leBytes_length w n
    rw [hnil] at hlen
    simp at hlen
    omega
  cases v <;> simp only [Value.comparable, Option.some.injEq, reduceCtorEq] at hv <;> subst hv <;>
    simp only [JavaClass.integerType, Option.some.injEq, reduceCtorEq] at hc <;> subst hc
  case byte n =>
    exact ⟨rfl, by decide, hkey (by decide) (hne 1 _ (by decide))
      (signedAt_leBytes (w := 1) (by decide) n.toBitVec)⟩
  case short n =>
    exact ⟨rfl, by decide, hkey (by decide) (hne 2 _ (by decide))
      (signedAt_leBytes (w := 2) (by decide) n.toBitVec)⟩
  case integer n =>
    exact ⟨rfl, by decide, hkey (by decide) (hne 4 _ (by decide))
      (signedAt_leBytes (w := 4) (by decide) n.toBitVec)⟩
  case long n =>
    exact ⟨rfl, by decide, hkey (by decide) (hne 8 _ (by decide))
      (signedAt_leBytes (w := 8) (by decide) n.toBitVec)⟩

theorem agree_null_left (h : ¬w.lowData.IsNull) (hw : w.comparable = some c) :
    Value.null.Agree w := by
  rw [Value.Agree, Value.rank_of_comparable hw]
  exact compareLd_null_left zeroData_isNull h

theorem agree_null_right (h : ¬v.lowData.IsNull) (hv : v.comparable = some c) : v.Agree .null := by
  rw [Value.Agree, Value.rank_of_comparable hv]
  exact compareLd_null_right h zeroData_isNull

/-- Integers are ordered alike on both servers. -/
theorem agree_of_integer {t : FieldType} (hc : c.integerType = some t)
    (hv : v = .null ∨ v.comparable = some c) (hw : w = .null ∨ w.comparable = some c) :
    v.Agree w := by
  have hnot : ∀ {u : Value}, u.comparable = some c → ¬u.lowData.IsNull := by
    intro u hu hnull
    obtain ⟨htype, hint, hkey⟩ := lowData_integer hc hu
    rcases hnull with hn | hlen
    · rw [htype] at hn
      subst hn
      exact absurd hint (by decide)
    · rw [LowData.len, length_eq_zero_iff] at hlen
      rw [hlen, orderKey, if_pos hint, if_pos rfl] at hkey
      cases u <;> simp only [Value.comparable, Option.some.injEq, reduceCtorEq] at hu <;>
        simp only [Value.place, reduceCtorEq] at hkey
      subst hu
      cases hc
  rcases hv with rfl | hv <;> rcases hw with rfl | hw
  · rfl
  · exact agree_null_left (hnot hw) hw
  · exact agree_null_right (hnot hv) hv
  · obtain ⟨htv, hint, hkv⟩ := lowData_integer hc hv
    obtain ⟨htw, -, hkw⟩ := lowData_integer hc hw
    rw [Value.Agree, compareLd_eq_comp (.inl hint) htv htw, hkv, hkw,
      Value.rank_of_comparable hv, Value.rank_of_comparable hw, comp_cons]

def Value.IsAscii : Value → Prop
  | .string chars => chars ≠ [] ∧ ∀ ch ∈ chars, ch.toNat < 128
  | _ => False

theorem utf8_ascii {chars : List UInt16} (h : ∀ ch ∈ chars, ch.toNat < 128) :
    utf8 chars = chars.map fun ch => UInt8.ofNat ch.toNat := by
  induction chars with
  | nil => rfl
  | cons ch chars ih =>
    obtain ⟨hhead, htail⟩ := forall_mem_cons.mp h
    rw [utf8.eq_def]
    simp only [if_pos hhead, ih htail]
    rfl

theorem signed_ascii {chars : List UInt16} (h : ∀ ch ∈ chars, ch.toNat < 128) :
    (utf8 chars).map (fun b => toSigned 8 b.toNat) = chars.map fun ch => (ch.toNat : Int) := by
  rw [utf8_ascii h, map_map]
  refine map_congr_left fun ch hch => ?_
  have hlt := h ch hch
  have hnat : (UInt8.ofNat ch.toNat).toNat = ch.toNat := by
    rw [UInt8.toNat_ofNat', Nat.mod_eq_of_lt (by omega)]
  rw [Function.comp_apply, hnat, toSigned, if_pos (by omega)]

/-- So are ASCII strings. -/
theorem agree_of_ascii (hv : v = .null ∨ v.IsAscii) (hw : w = .null ∨ w.IsAscii) : v.Agree w := by
  have hnot : ∀ {chars : List UInt16}, (Value.string chars).IsAscii →
      ¬(Value.string chars).lowData.IsNull := by
    rintro chars ⟨hne, hascii⟩ (htype | hlen)
    · cases htype
    · rw [LowData.len, length_eq_zero_iff] at hlen
      refine hne (map_eq_nil_iff.mp ((utf8_ascii hascii).symm.trans hlen))
  rcases hv with rfl | hv <;> rcases hw with rfl | hw
  · rfl
  · cases w <;> first | exact absurd hw id | skip
    exact agree_null_left (hnot hw) rfl
  · cases v <;> first | exact absurd hv id | skip
    exact agree_null_right (hnot hv) rfl
  · cases v <;> first | exact absurd hv id | skip
    cases w <;> first | exact absurd hw id | skip
    rename_i s t
    rw [Value.Agree, compareLd_typed (hnot hv) (hnot hw) rfl]
    show compareString (utf8 s) (utf8 t) = comp (Value.string s).rank (Value.string t).rank
    rw [compareString_eq_comp, signed_ascii hv.2, signed_ascii hw.2,
      Value.rank_of_comparable (c := .string) rfl, Value.rank_of_comparable (c := .string) rfl,
      comp_cons]
    rfl

/-! ## §2. The order of the docserver. -/

/-- The columns of a row that are asked for, as the docserver has them. -/
def docData (fields : List FieldDesc) (row : Row) : List LowData :=
  fields.map fun field => (row field.fieldName).lowData

def ordIndexes (fields : List FieldDesc) (orders : List (String × OrderTypes)) :
    List (Nat × OrderTypes) :=
  orders.map fun order => (ordIndex (fields.map FieldDesc.fieldName) order.1, order.2)

variable {fields : List FieldDesc}

theorem docData_ordIndex {name : String} (h : name ∈ fields.map FieldDesc.fieldName) (row : Row) :
    (docData fields row)[ordIndex (fields.map FieldDesc.fieldName) name]? =
      some (row name).lowData := by
  have hfound : ((fields.map FieldDesc.fieldName).findIdx? fun n => n = name).isSome := by
    rw [findIdx?_isSome, any_eq_true]
    exact ⟨name, h, by simp⟩
  obtain ⟨j, hj⟩ := Option.isSome_iff_exists.mp hfound
  obtain ⟨hlt, htest, -⟩ := findIdx?_eq_some_iff_getElem.mp hj
  have hget : (fields.map FieldDesc.fieldName)[j]? = some name := by
    rw [getElem?_eq_getElem hlt]
    exact congrArg some (of_decide_eq_true htest)
  have hdata : docData fields row =
      (fields.map FieldDesc.fieldName).map fun n => (row n).lowData := by
    simp [docData]
  rw [ordIndex, hj, Option.getD_some, hdata, getElem?_map, hget]
  rfl

/-- **Where the values agree, the docserver orders rows as the mergeserver does.** -/
theorem compareRow_eq {orders : List (String × OrderTypes)} {a b : Row}
    (hfields : ∀ order ∈ orders, order.1 ∈ fields.map FieldDesc.fieldName)
    (hagree : ∀ order ∈ orders, (a order.1).Agree (b order.1)) :
    compareRow (ordIndexes fields orders) (docData fields a) (docData fields b) =
      rowCmp orders a b := by
  induction orders with
  | nil => rfl
  | cons order orders ih =>
    obtain ⟨hhead, htail⟩ := forall_mem_cons.mp hfields
    obtain ⟨hagreeHead, hagreeTail⟩ := forall_mem_cons.mp hagree
    have hrest := ih htail hagreeTail
    have hret : compareLd (a order.1).lowData (b order.1).lowData =
        comp (a order.1).rank (b order.1).rank := hagreeHead
    simp only [ordIndexes, map_cons, compareRow, docData_ordIndex hhead, Option.getD_some,
      hret, comp_ne_neg_two, if_false]
    show (if columnCmp order.1 order.2 a b ≠ 0 then columnCmp order.1 order.2 a b else
      compareRow (ordIndexes fields orders) (docData fields a) (docData fields b)) =
      (if columnCmp order.1 order.2 a b = 0 then rowCmp orders a b
        else columnCmp order.1 order.2 a b)
    rw [hrest]
    split_ifs <;> first | rfl | contradiction

/-! ## §3. The plan on rows. -/

structure StoredRow where
  docid : Int64
  row : Row

def StoredRow.record (fields : List FieldDesc) (r : StoredRow) : Record :=
  ⟨r.docid, tuple fields r.row⟩

variable {stmt : QueryStatement} {classOf : String → JavaClass}

/-- `OutputStep` cuts the window and projects. -/
theorem outputStep_rows (h : stmt.PlainColumns) (rows : List StoredRow) :
    outputStep stmt.positions stmt.offset stmt.limit
        (.list (rows.map (StoredRow.record stmt.rewrite.selectFields))) =
      .ok (((rows.take stmt.limit).drop stmt.offset).map (StoredRow.record stmt.selectFields)) := by
  have hrecord : ∀ l : List StoredRow,
      (l.map (StoredRow.record stmt.rewrite.selectFields)).mapM (outputRecord stmt.positions) =
        .ok (l.map (StoredRow.record stmt.selectFields)) := by
    intro l
    refine mapM_map_ok fun r _ => ?_
    simp only [outputRecord, StoredRow.record, QueryStatement.mapM_getCell_positions h, bind,
      Except.bind, pure, Except.pure]
  have htake : rows.take (if stmt.limit < rows.length then stmt.limit else rows.length) =
      rows.take stmt.limit := by
    split_ifs with hlt
    · rfl
    · rw [take_length, take_of_length_le (by omega)]
  simp only [outputStep, ResultData.records, length_map]
  by_cases hshort : rows.length < stmt.offset
  · rw [if_pos hshort, drop_of_length_le (by rw [length_take]; omega)]
    rfl
  · rw [if_neg hshort, ← map_take, htake, ← map_drop, hrecord]

/-- The order of the mergeserver. -/
abbrev StoredRow.cmp (stmt : QueryStatement) (a b : StoredRow) : Int :=
  rowCmp stmt.orders a.row b.row

theorem lawful_storedRows (stmt : QueryStatement) : LawfulCmp (StoredRow.cmp stmt) :=
  ⟨fun a b => (lawful_rowCmp _).swap a.row b.row,
    fun a b c => (lawful_rowCmp _).trans a.row b.row c.row⟩

/-- `OrderStep` sorts the rows. -/
theorem orderData_rows (h : stmt.PlainColumns) (horder : stmt.rewrite.orderFields ≠ [])
    {rows : List StoredRow} (htyped : ∀ r ∈ rows, r.row.Typed classOf stmt.orderColumns) :
    ∃ sorted : List StoredRow,
      stmt.orderData (.list (rows.map (StoredRow.record stmt.rewrite.selectFields))) =
        .ok (.list (sorted.map (StoredRow.record stmt.rewrite.selectFields))) ∧
      sorted.Perm rows ∧ sorted.Pairwise fun a b => rowCmp stmt.orders a.row b.row ≤ 0 := by
  set index := stmt.rewrite.orderFields.map fun order =>
    (position stmt.rewrite.selectFields order.field, order.type) with hindex
  have hcompare : ∀ a ∈ rows, ∀ b ∈ rows,
      orderCompare index (a.record stmt.rewrite.selectFields).data
        (b.record stmt.rewrite.selectFields).data = .ok (rowCmp stmt.orders a.row b.row) := by
    intro a ha b hb
    have hnames := @QueryStatement.rewrite_order_names stmt
    exact orderCompare_tuple (QueryStatement.order_mem_rewrite h)
      (hnames.symm ▸ htyped a ha) (hnames.symm ▸ htyped b hb)
  obtain ⟨sorted, hsorted⟩ := sortM_ok fun a ha b hb => ⟨_, hcompare a ha b hb⟩
  have hlawful := lawful_storedRows stmt
  refine ⟨sorted, ?_, sortM_perm hsorted, sortM_sorted hlawful hcompare hsorted⟩
  have hmap := @sortM_map Record StoredRow Fault
    (fun a b => orderCompare index a.data b.data) (StoredRow.record stmt.rewrite.selectFields) rows
  rw [hsorted] at hmap
  simp only [QueryStatement.orderData, if_neg horder, QueryStatement.orderIndex_eq h horder,
    orderStep, ResultData.records, bind, Except.bind, ← hindex, hmap]
  rfl

/-- **An ordered query writes the rows of the nodes, in order, from the offset to the
limit.** -/
theorem plan_rows (doubles : DoubleFuncs) (order : HashOrder) (h : stmt.PlainColumns)
    (haccess : stmt.accessType = .commonQuery) (horder : stmt.orderFields ≠ [])
    (nodes : List (List StoredRow))
    (htyped : ∀ r ∈ nodes.flatten, r.row.Typed classOf stmt.orderColumns) :
    ∃ sorted : List StoredRow, sorted.Perm nodes.flatten ∧
      (sorted.Pairwise fun a b => rowCmp stmt.orders a.row b.row ≤ 0) ∧
      ∀ offset limit, offset ≤ limit →
        ({ stmt with offset := offset, limit := limit } : QueryStatement).plan doubles order
            (nodes.map fun rows =>
              some (rows.map (StoredRow.record stmt.rewrite.selectFields))) =
          .ok (((sorted.take limit).drop offset).map (StoredRow.record stmt.selectFields)) := by
  have hfields : stmt.rewrite.orderFields ≠ [] := by
    rw [QueryStatement.rewrite_orderFields]
    intro hnil
    rw [map_eq_nil_iff, QueryStatement.orderDescs] at hnil
    split_ifs at hnil
    · simp at hnil
    · exact horder hnil
  obtain ⟨sorted, hsorted, hperm, hpairwise⟩ := orderData_rows h hfields htyped
  refine ⟨sorted, hperm, hpairwise, ?_⟩
  intro offset limit hoffset
  have hselect : selectStep order stmt.rewrite (nodes.map fun rows =>
      some (rows.map (StoredRow.record stmt.rewrite.selectFields))) =
      .list (nodes.flatten.map (StoredRow.record stmt.rewrite.selectFields)) := by
    have hrewrite : stmt.rewrite.accessType = .commonQuery := haccess
    simp only [selectStep, hrewrite, flatMap_map, Option.getD_some, map_flatten]
    rfl
  -- offset and limit are not looked at before the output
  have hplain : ({ stmt with offset := offset, limit := limit } : QueryStatement).PlainColumns :=
    ⟨h.select, h.order, h.noGroup, h.noHaving⟩
  rw [QueryStatement.plan_eq doubles order hplain hoffset]
  show ((stmt.orderData (selectStep order stmt.rewrite _)).bind _) = _
  rw [hselect, hsorted]
  exact outputStep_rows hplain sorted

/-! ## §4. The limit. -/

/-- A node answers with its first rows: as many as the limit if it has so many, such
that no row left out is smaller in the order of the docserver. -/
structure AnswersFirst (stmt : QueryStatement) (src : Source StoredRow) : Prop where
  length : src.kept.length = min stmt.limit (src.kept.length + src.left.length)
  first : ∀ x ∈ src.kept, ∀ y ∈ src.left,
    ¬compareRow (ordIndexes stmt.rewrite.selectFields stmt.orders)
      (docData stmt.rewrite.selectFields y.row) (docData stmt.rewrite.selectFields x.row) < 0

def allRows (sources : List (Source StoredRow)) : List StoredRow :=
  sources.flatMap fun src => src.kept ++ src.left

/-- No place from the offset to the limit lies between the number of received rows and the
number of all rows that are not behind some row. -/
def Covers (stmt : QueryStatement) (sources : List (Source StoredRow)) : Prop :=
  ∀ r ∈ allRows sources,
    min (upTo (StoredRow.cmp stmt) (allRows sources) r) stmt.limit ≤
      max (upTo (StoredRow.cmp stmt) (sources.flatMap Source.kept) r) stmt.offset

def IntegerOrString (c : JavaClass) : Prop := c.integerType.isSome ∨ c = .string

theorem rank_injective {c : JavaClass} {v w : Value} (hv : v = .null ∨ v.comparable = some c)
    (hw : w = .null ∨ w.comparable = some c) (h : v.rank = w.rank) : v = w := by
  rcases hv with rfl | hv <;> rcases hw with rfl | hw
  · rfl
  · rw [Value.rank_of_comparable hw] at h
    simp [Value.rank] at h
  · rw [Value.rank_of_comparable hv] at h
    simp [Value.rank] at h
  · rw [Value.rank_of_comparable hv, Value.rank_of_comparable hw] at h
    exact Value.place_injective hv hw (List.cons.inj h).2

/-- Rows that compare equal agree on the columns. -/
theorem rowCmp_eq_zero {a b : Row} (ha : a.Typed classOf stmt.orderColumns)
    (hb : b.Typed classOf stmt.orderColumns) :
    rowCmp stmt.orders a b = 0 ↔ ∀ name ∈ stmt.orderColumns, a name = b name := by
  have hnames := @QueryStatement.rewrite_order_names stmt
  constructor
  · intro h name hname
    rw [← hnames] at hname
    obtain ⟨order, horder, rfl⟩ := mem_map.mp hname
    rw [hnames] at hname
    have hzero := lexCmp_eq_zero.mp h (columnCmp order.field.fieldName order.type)
      (mem_map_of_mem (f := fun o : String × OrderTypes => columnCmp o.1 o.2)
        (mem_map_of_mem (f := fun o : OrderDesc => (o.field.fieldName, o.type)) horder))
    have hcomp : comp (a order.field.fieldName).rank (b order.field.fieldName).rank = 0 := by
      unfold columnCmp at hzero
      split_ifs at hzero <;> omega
    exact rank_injective (ha _ hname) (hb _ hname) (comp_eq_zero.mp hcomp)
  · intro h
    refine lexCmp_eq_zero.mpr fun cmp hcmp => ?_
    obtain ⟨_, ho, rfl⟩ := mem_map.mp hcmp
    obtain ⟨order, horder, rfl⟩ := mem_map.mp ho
    have hequal := h order.field.fieldName (hnames ▸ mem_map_of_mem horder)
    have hcomp : comp (a order.field.fieldName).rank (b order.field.fieldName).rank = 0 :=
      comp_eq_zero.mpr (by rw [hequal])
    simp [columnCmp, hcomp]

variable {order : String × OrderTypes}

theorem mem_orderColumns (h : order ∈ stmt.orders) : order.1 ∈ stmt.orderColumns := by
  rw [← @QueryStatement.rewrite_order_names stmt]
  obtain ⟨o, ho, rfl⟩ := mem_map.mp h
  exact mem_map_of_mem ho

theorem mem_asked (h : stmt.PlainColumns) (horder : order ∈ stmt.orders) :
    order.1 ∈ stmt.rewrite.selectFields.map FieldDesc.fieldName := by
  have hkey := (QueryStatement.mem_rewrite_select h _).mpr (.inr (mem_orderColumns horder))
  obtain ⟨field, hfield, heq⟩ := mem_map.mp hkey
  exact mem_map.mpr ⟨field, hfield, congrArg Prod.snd heq⟩

theorem keepsFirst_of_answersFirst (h : stmt.PlainColumns) {src : Source StoredRow}
    (hsrc : AnswersFirst stmt src)
    (hagree : ∀ x ∈ src.kept, ∀ y ∈ src.left, ∀ order ∈ stmt.orders,
      (y.row order.1).Agree (x.row order.1)) :
    src.KeepsFirst (StoredRow.cmp stmt) stmt.limit := by
  obtain ⟨hlength, hleft⟩ := hsrc
  refine ⟨fun hne => ?_, fun x hx y hy => ?_⟩
  · have hpos := length_pos_of_ne_nil hne
    omega
  · have hnot := hleft x hx y hy
    rw [compareRow_eq (fun order ho => mem_asked h ho) (hagree x hx y hy)] at hnot
    exact (lawful_storedRows stmt).nonneg_iff.mp (not_lt.mp hnot)

/-- **When LIMIT and OFFSET are applied to the final result.**  The plan writes the rows from
the offset to the limit of what it would write if every node returned all its rows, up to
exchanging rows that are equal on the ORDER BY columns, exactly if the rows that the nodes
return cover these places.  They do if every node returns its first rows in its own order and
agrees with the mergeserver on the order of a string it returns and one it leaves out. -/
theorem limit_pushdown (doubles : DoubleFuncs) (order : HashOrder) (stmt : QueryStatement)
    (classOf : String → JavaClass) (sources : List (Source StoredRow))
    (nodes : List (List StoredRow)) (h : stmt.PlainColumns)
    (haccess : stmt.accessType = .commonQuery) (horder : stmt.orderFields ≠ [])
    (hoffset : stmt.offset ≤ stmt.limit)
    (hclass : ∀ name ∈ stmt.orderColumns, IntegerOrString (classOf name))
    (htyped : ∀ r ∈ allRows sources, r.row.Typed classOf stmt.orderColumns)
    (hnodes : Forall₂ (fun rows src => rows.Perm (src.kept ++ src.left)) nodes sources) :
    ∃ full kept : List StoredRow,
      full.Perm (allRows sources) ∧
      (full.Pairwise fun a b => rowCmp stmt.orders a.row b.row ≤ 0) ∧
      (∀ limit, (allRows sources).length ≤ limit →
        ({ stmt with offset := 0, limit := limit } : QueryStatement).plan doubles order
            (nodes.map fun rows =>
              some (rows.map (StoredRow.record stmt.rewrite.selectFields))) =
          .ok (full.map (StoredRow.record stmt.selectFields))) ∧
      kept.Perm (sources.flatMap Source.kept) ∧
      stmt.plan doubles order (sources.map fun src =>
          some (src.kept.map (StoredRow.record stmt.rewrite.selectFields))) =
        .ok (((kept.take stmt.limit).drop stmt.offset).map
          (StoredRow.record stmt.selectFields)) ∧
      (Forall₂ (fun a b => ∀ name ∈ stmt.orderColumns, a.row name = b.row name)
          ((kept.take stmt.limit).drop stmt.offset) ((full.take stmt.limit).drop stmt.offset) ↔
        Covers stmt sources) ∧
      ((∀ src ∈ sources, AnswersFirst stmt src) →
        (∀ name ∈ stmt.orderColumns, classOf name = .string → ∀ src ∈ sources,
          ∀ x ∈ src.kept, ∀ y ∈ src.left, (y.row name).Agree (x.row name)) →
        Covers stmt sources) := by
  have hlawful := lawful_storedRows stmt
  have hflat : nodes.flatten.Perm (allRows sources) := by
    rw [allRows, flatMap_def]
    refine Perm.flatten_congr (forall₂_map_right_iff.mpr hnodes)
  have hmem : ∀ src ∈ sources, ∀ r ∈ src.kept ++ src.left, r ∈ allRows sources :=
    fun src hsrc r hr => mem_flatMap.mpr ⟨src, hsrc, hr⟩
  have hkeptFlat : (sources.map Source.kept).flatten = sources.flatMap Source.kept :=
    flatMap_def.symm
  have hkeptTyped : ∀ r ∈ sources.flatMap Source.kept, r.row.Typed classOf stmt.orderColumns := by
    intro r hr
    obtain ⟨src, hsrc, hin⟩ := mem_flatMap.mp hr
    exact htyped r (hmem src hsrc r (mem_append_left _ hin))
  obtain ⟨kept, hkeptPerm, hkeptSorted, hkeptPlan⟩ := @plan_rows stmt classOf doubles order h
    haccess horder (sources.map Source.kept) (hkeptFlat ▸ hkeptTyped)
  obtain ⟨full, hfullPerm, hfullSorted, hfullPlan⟩ := @plan_rows stmt classOf doubles order h
    haccess horder nodes fun r hr => htyped r (hflat.mem_iff.mp hr)
  rw [hkeptFlat] at hkeptPerm
  have hperm : full.Perm (allRows sources) := hfullPerm.trans hflat
  refine ⟨full, kept, hperm, hfullSorted, ?_, hkeptPerm, ?_, ?_, ?_⟩
  · intro limit hlimit
    have hlength : full.length ≤ limit := by
      rw [hperm.length_eq]
      exact hlimit
    rw [hfullPlan 0 limit (Nat.zero_le _), take_of_length_le hlength, drop_zero]
  · have hplan := hkeptPlan stmt.offset stmt.limit hoffset
    rwa [map_map] at hplan
  · -- equal on the columns means equal in the order
    have hequal : Forall₂ (fun a b => ∀ name ∈ stmt.orderColumns, a.row name = b.row name)
          ((kept.take stmt.limit).drop stmt.offset) ((full.take stmt.limit).drop stmt.offset) ↔
        Forall₂ (fun a b => StoredRow.cmp stmt a b = 0)
          ((kept.take stmt.limit).drop stmt.offset)
          ((full.take stmt.limit).drop stmt.offset) := by
      rw [forall₂_iff_get, forall₂_iff_get]
      refine and_congr_right fun _ => forall₃_congr fun i hi hj => ?_
      have hk := mem_of_mem_take (mem_of_mem_drop (get_mem _ ⟨i, hi⟩))
      have hf := mem_of_mem_take (mem_of_mem_drop (get_mem _ ⟨i, hj⟩))
      exact (rowCmp_eq_zero (hkeptTyped _ (hkeptPerm.mem_iff.mp hk))
        (htyped _ (hperm.mem_iff.mp hf))).symm
    have hcount : ∀ r, upTo (StoredRow.cmp stmt) full r =
        upTo (StoredRow.cmp stmt) (sources.flatMap Source.kept) r +
          upTo (StoredRow.cmp stmt) (sources.flatMap Source.left) r :=
      fun r => (hperm.countP_eq _).trans (upTo_flatMap sources r)
    have hkept : ∀ r, upTo (StoredRow.cmp stmt) kept r =
        upTo (StoredRow.cmp stmt) (sources.flatMap Source.kept) r := fun r => hkeptPerm.countP_eq _
    have hlength : kept.length ≤ full.length := by
      rw [hkeptPerm.length_eq, hperm.length_eq, allRows,
        ← (flatMap_append_perm sources Source.kept Source.left).length_eq, length_append]
      exact Nat.le_add_right _ _
    rw [hequal, window_iff hlawful hkeptSorted hfullSorted
      (fun r => by rw [hcount, hkept]; exact Nat.le_add_right _ _) hlength]
    refine forall_congr' fun r => ?_
    rw [hperm.mem_iff, hkept, hcount, allRows, upTo_flatMap]
  · intro hsources hagree r _
    refine le_max_of_le_left (upTo_kept hlawful (fun src hsrc => ?_) r)
    refine keepsFirst_of_answersFirst h (hsources src hsrc) fun x hx y hy order ho => ?_
    have hx' := hmem src hsrc x (mem_append_left _ hx)
    have hy' := hmem src hsrc y (mem_append_right _ hy)
    have hname := mem_orderColumns ho
    rcases hclass order.1 hname with hint | hstring
    · obtain ⟨t, ht⟩ := Option.isSome_iff_exists.mp hint
      exact agree_of_integer ht (htyped y hy' order.1 hname) (htyped x hx' order.1 hname)
    · exact hagree order.1 hname hstring src hsrc x hx y hy

/-- `SELECT s FROM t ORDER BY s LIMIT 1`. -/
def firstString : QueryStatement where
  tableName := "t"
  selectFields := [{ fieldName := "s" }]
  orderFields := [⟨{ fieldName := "s" }, .asc⟩]
  limit := 1

theorem firstString_plain : firstString.PlainColumns where
  select := by simp [firstString, FieldDesc.Plain]; decide
  order := by simp [firstString, FieldDesc.Plain]; decide
  noGroup := rfl
  noHaving := rfl

def stringRow (docid : Int64) (chars : List UInt16) : StoredRow :=
  ⟨docid, fun name => if name = "s" then .string chars else .null⟩

/-- "a" and "b" on one node, "é" on another: no node compares it with the others. -/
def stringSources : List (Source StoredRow) :=
  [⟨[stringRow 1 [97]], [stringRow 2 [98]]⟩, ⟨[stringRow 3 [233]], []⟩]

theorem limit_pushdown_strings :
    ∃ full kept : List StoredRow,
      full.Perm (allRows stringSources) ∧
      firstString.plan noDoubles fillOrder (stringSources.map fun src =>
          some (src.kept.map (StoredRow.record firstString.rewrite.selectFields))) =
        .ok (((kept.take 1).drop 0).map (StoredRow.record firstString.selectFields)) ∧
      Forall₂ (fun a b => ∀ name ∈ firstString.orderColumns, a.row name = b.row name)
        ((kept.take 1).drop 0) ((full.take 1).drop 0) := by
  have hcolumns : firstString.orderColumns = ["s"] := by decide +kernel
  have hascii : ∀ docid {char : UInt16}, char.toNat < 128 →
      ((stringRow docid [char]).row "s").IsAscii :=
    fun docid char h => ⟨cons_ne_nil _ _, fun c hc => by rwa [mem_singleton.mp hc]⟩
  obtain ⟨full, kept, hperm, -, -, -, hplan, hiff, hcovers⟩ :=
    limit_pushdown noDoubles fillOrder firstString (fun _ => .string) stringSources
      [[stringRow 2 [98], stringRow 1 [97]], [stringRow 3 [233]]] firstString_plain rfl
      (by simp [firstString]) (by decide) (fun _ _ => .inr rfl)
      (by
        intro r hr name hname
        rw [hcolumns, mem_singleton] at hname
        subst hname
        simp only [allRows, stringSources, flatMap_cons, flatMap_nil, append_nil, cons_append,
          nil_append, mem_cons, not_mem_nil, or_false] at hr
        rcases hr with rfl | rfl | rfl <;> exact .inr rfl)
      (.cons (Perm.swap _ _ _) (.cons (Perm.refl _) .nil))
  refine ⟨full, kept, hperm, hplan, hiff.mpr (hcovers ?_ ?_)⟩
  · refine forall_mem_cons.mpr ⟨⟨by decide, ?_⟩,
      forall_mem_cons.mpr ⟨⟨by decide, by simp⟩, by simp⟩⟩
    intro x hx y hy
    rw [mem_singleton.mp hx, mem_singleton.mp hy]
    decide +kernel
  · intro name hname _ src hsrc x hx y hy
    rw [hcolumns, mem_singleton] at hname
    subst hname
    rcases mem_cons.mp hsrc with rfl | hsrc
    · rw [mem_singleton.mp hx, mem_singleton.mp hy]
      exact agree_of_ascii (.inr (hascii 2 (by decide))) (.inr (hascii 1 (by decide)))
    · rw [mem_singleton.mp hsrc] at hy
      exact absurd hy not_mem_nil

/-- **A string that is not ASCII.**  Of its rows "a" and "é" a node answers with the
second, whose first byte is negative; with all rows, "a" comes first. -/
theorem limit_of_accent :
    AnswersFirst firstString ⟨[stringRow 2 [233]], [stringRow 1 [97]]⟩ ∧
    firstString.plan noDoubles fillOrder
        [some [(stringRow 2 [233]).record firstString.rewrite.selectFields]] =
      .ok [(stringRow 2 [233]).record firstString.selectFields] ∧
    ({ firstString with limit := 2 } : QueryStatement).plan noDoubles fillOrder
        [some ([stringRow 1 [97], stringRow 2 [233]].map
          (StoredRow.record firstString.rewrite.selectFields))] =
      .ok ([stringRow 1 [97], stringRow 2 [233]].map (StoredRow.record firstString.selectFields)) ∧
    (stringRow 1 [97]).row "s" ≠ (stringRow 2 [233]).row "s" := by
  refine ⟨⟨by decide, ?_⟩, by decide +kernel, by decide +kernel, by decide +kernel⟩
  intro x hx y hy
  rw [mem_singleton.mp hx, mem_singleton.mp hy]
  decide +kernel

end Mile.Merge
