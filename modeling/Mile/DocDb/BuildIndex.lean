/-
  Mile.DocDb.BuildIndex
  ─────────────────────
  **BUILDING AN INDEX WHILE ROWS ARE INSERTED** (`storage/docdb/table.c`, `table_ensure_index` and
  `table_build_index`).

  The build loop walks over the rows of the current segment behind the inserts; near the end it
  locks the table, catches up and enters the index into `index_meta_hash`, which `table_insert`
  reads.  Inserts are atomic steps between the steps of the build.
-/
import Mile.DocDb.DynamicHashIndex
import Mile.DocDb.FilterField

namespace Mile.DocDb

open Lib Common List

/-! ## §1. The table during a build. -/

/-- An index of a segment: what `segment_ensure_index` creates, and
`segment_index_insert` with whether it succeeds. -/
structure IndexImpl (I : Type) where
  new : I
  insert : I → LowData → Nat → I × Bool

/-- The table and the index to be built.  `aliased` tells that the field has an
index that was built since the table was opened: then `index_meta_hash` has
the very record of the metadata. -/
structure BuildConfig where
  limit : RowLimit
  maxSegmentNum : Nat
  storeRaw : Bool
  fieldName : Bytes
  dataType : FieldType
  aliased : Bool
  max_pos : 0 < maxSegmentNum

/-- The `row_limit` of the table. -/
def BuildConfig.rowLimit (cfg : BuildConfig) : Nat := cfg.limit.rows

/-- A row of a segment: its stored columns, and whether its docid is marked in
`del_bitmap`. -/
structure SegRow where
  cols : List LowData
  live : Bool

structure BuildSeg (I : Type) where
  init : Bool
  full : Bool
  rows : List SegRow
  index : Option I

/-- Where the build is.  `sid` is the segment that was the current one when it
began; `check`, `body`, `near` and `locked` are the head of the loop over its
rows, the insert of one row, the test for the end of the segment, and the part
under `table_lock`. -/
inductive Pc where
  | start
  | choose
  | ensure (sid : Nat)
  | check (sid docid : Nat)
  | body (sid docid : Nat)
  | near (sid docid : Nat)
  | locked (sid docid : Nat)
  | fin (sid i : Nat)
  | finRow (sid i docid : Nat)
  | publish
  | done
  deriving DecidableEq

/-- The table: `metaAdded` when the index is in the metadata, `hashed` when
`table_insert` sees it. -/
structure BuildTable (I : Type) where
  segs : Nat → BuildSeg I
  current : Nat
  metaAdded : Bool
  hashed : Bool
  pc : Pc

/-- Whether the other indexes of the table accept a row, and if not, whether
one before or after this index in the loop of `table_insert` fails. -/
inductive OtherIndexes where
  | succeed
  | failBefore
  | failAfter
  deriving DecidableEq

def absentSeg {I : Type} : BuildSeg I := ⟨false, false, [], none⟩

def BuildSeg.cols {I : Type} (s : BuildSeg I) : List (List LowData) := s.rows.map SegRow.cols

def emptyBuildTable {I : Type} : BuildTable I := ⟨fun _ => absentSeg, 0, false, false, .start⟩

def BuildTable.setSeg {I : Type} (t : BuildTable I) (sid : Nat) (s : BuildSeg I) : BuildTable I :=
  { t with segs := Function.update t.segs sid s }

/-! ## §2. The index types. -/

/-- The index of one field in a segment, by its `enum index_key_alg`. -/
inductive IndexField where
  | hash (index : HashIndex)
  | filter (index : PlainField)
  | fulltext (index : DyhashIndex)

/-- The members of `enum index_key_alg` whose indexes hold rows; the buckets of
a hash index have to fit a mapping. -/
inductive FieldIndexAlg (limit : RowLimit) where
  | hash (mapped : 12 * (limit.rows + 1) < 2 ^ 32)
  | filter
  | fulltext

/-- `index_field_init` in an empty work space. -/
def indexFieldInit (limit : RowLimit) : FieldIndexAlg limit → IndexField
  | .hash mapped => .hash (hashIndexInit limit.rows limit.rows_pos mapped)
  | .filter => .filter ⟨0, storageInit limit⟩
  | .fulltext => .fulltext (dyhashIndexInit limit.rows limit.rows_pos)

/-- `index_field_insert`, with whether it returns no error; a dynamic hash
index whose table numbers are used up is left alone. -/
def indexFieldInsert (index : IndexField) (data : LowData) (docid : Nat) : IndexField × Bool :=
  match index with
  | .hash h =>
    let r := hashIndexInsert h data docid.toUInt32
    (.hash r.1, r.2 = .success)
  | .filter f =>
    let r := f.insert data docid
    (.filter r.1, r.2 = .success)
  | .fulltext T =>
    match dyhashIndexInsert T data docid.toUInt32 with
    | some r => (.fulltext r.1, 0 ≤ r.2)
    | none => (.fulltext T, false)

/-- `index_field_equal_query`; a filter index has no rowids to give. -/
def indexFieldEqualQuery {S : Type} [Zero S] [Add S] (index : Option IndexField)
    (data : LowData) : Option (Option (RowidList S)) :=
  match index with
  | some (.hash h) => hashIndexQuery h data
  | some (.fulltext T) => dyhashIndexQuery T data
  | some (.filter _) => some none
  | none => some none

/-- `index_field_value_query` on a filter index; the other types have no
values to give. -/
def indexFilterValue (index : Option IndexField) (docid : Nat) : Bytes :=
  match index with
  | some (.filter f) => storageQuery f.filterIndex docid
  | _ => []

def indexFieldImpl (limit : RowLimit) (alg : FieldIndexAlg limit) : IndexImpl IndexField :=
  ⟨indexFieldInit limit alg, indexFieldInsert⟩

section Model

variable {I : Type} (impl : IndexImpl I) (cfg : BuildConfig)

/-! ## §3. Inserts. -/

def isCol (c : LowData) : Bool := c.fieldName = cfg.fieldName

def adaptData (c : LowData) : LowData :=
  if c.type = cfg.dataType then c else ⟨c.fieldName, .null, []⟩

/-- The part of the loop of `table_insert` that concerns the index: every
column of its name is inserted, up to the first failure. -/
def insertCols (docid : Nat) : I → List LowData → I × Bool
  | x, [] => (x, true)
  | x, c :: cs =>
    if isCol cfg c then
      let r := impl.insert x (adaptData cfg c) docid
      if r.2 then insertCols docid r.1 cs else (r.1, false)
    else insertCols docid x cs

/-- What becomes of the index, and whether the row is accepted.  A segment
without the index refuses a row that has the column. -/
def indexRow (s : BuildSeg I) (hashed : Bool) (row : List LowData) (others : OtherIndexes) :
    Option I × Bool :=
  if others = .failBefore then (s.index, false)
  else
    let r : Option I × Bool :=
      if hashed = false then (s.index, true)
      else
        match s.index with
        | some x => ((some (insertCols impl cfg s.rows.length x row).1),
            (insertCols impl cfg s.rows.length x row).2)
        | none => (none, !(row.any (isCol cfg)))
    (r.1, r.2 && decide (others = .succeed))

/-- The segment after `table_insert`.  `SEGMENT_FULL` is only set when the last
row was accepted. -/
def addRow (s : BuildSeg I) (hashed : Bool) (row : List LowData) (others : OtherIndexes) :
    BuildSeg I :=
  let r := indexRow impl cfg s hashed row others
  { s with
    full := s.full || (r.2 && decide (s.rows.length + 1 = cfg.rowLimit))
    rows := s.rows ++ [⟨if cfg.storeRaw then row else [], r.2⟩]
    index := r.1 }

/-- The segment `table_add_segment` creates. -/
def freshSeg (t : BuildTable I) : BuildSeg I :=
  ⟨true, false, [], if t.metaAdded then some impl.new else none⟩

def freeSeg (t : BuildTable I) : Option Nat :=
  ((List.range cfg.maxSegmentNum).find? fun i =>
    !(t.segs ((i + t.current) % cfg.maxSegmentNum)).init).map
      fun i => (i + t.current) % cfg.maxSegmentNum

/-- `table_prepare_insert`: the segment is there and has room, is created, or
is the next free one.  In the last case all metadata is entered into
`index_meta_hash` again. -/
def prepare (t : BuildTable I) : Option (BuildTable I) :=
  let s := t.segs t.current
  if s.init = false then some (t.setSeg t.current (freshSeg impl t))
  else if cfg.rowLimit ≤ s.rows.length then
    (freeSeg cfg t).map fun j =>
      { t.setSeg j (freshSeg impl t) with current := j, hashed := t.hashed || t.metaAdded }
  else some t

def insertRow (t : BuildTable I) (row : List LowData) (others : OtherIndexes) : BuildTable I :=
  match prepare impl cfg t with
  | none => t
  | some t' => t'.setSeg t'.current (addRow impl cfg (t'.segs t'.current) t'.hashed row others)

/-! ## §4. The build. -/

/-- `query_data_and_insert_index`: only a marked row is read, and only its
first column of the name. -/
def queryAndInsert (s : BuildSeg I) (docid : Nat) : BuildSeg I :=
  match s.rows[docid]? with
  | none => s
  | some r =>
    if r.live = false then s
    else
      match r.cols.find? (isCol cfg) with
      | none => s
      | some c =>
        { s with index := s.index.map fun x => (impl.insert x (adaptData cfg c) docid).1 }

/-- `segment_ensure_index`; an index that is there already is opened again. -/
def ensureSeg (s : BuildSeg I) : BuildSeg I := { s with index := some (s.index.getD impl.new) }

def catchUp (s : BuildSeg I) (docid : Nat) : BuildSeg I :=
  (List.range' (docid + 1) (s.rows.length - (docid + 1))).foldl (queryAndInsert impl cfg) s

/-- One step of `table_ensure_index`. -/
def buildStep (t : BuildTable I) : BuildTable I :=
  match t.pc with
  | .start => { t with metaAdded := true, hashed := t.hashed || cfg.aliased, pc := .choose }
  | .choose =>
    if (t.segs t.current).init then { t with pc := .ensure t.current }
    else { t with pc := .fin t.current 0 }
  | .ensure sid => { t.setSeg sid (ensureSeg impl (t.segs sid)) with pc := .check sid 0 }
  | .check sid docid =>
    if docid < (t.segs sid).rows.length then { t with pc := .body sid docid }
    else { t with pc := .fin sid 0 }
  | .body sid docid =>
    { t.setSeg sid (queryAndInsert impl cfg (t.segs sid) docid) with pc := .near sid docid }
  | .near sid docid =>
    if sid = t.current ∧ (t.segs sid).rows.length - docid < 10 then
      { t with pc := .locked sid docid }
    else { t with pc := .check sid (docid + 1) }
  | .locked sid docid =>
    { t.setSeg sid (catchUp impl cfg (t.segs sid) docid) with
      hashed := true
      pc := .check sid ((t.segs sid).rows.length + 1) }
  | .fin sid i =>
    if cfg.maxSegmentNum ≤ i then { t with pc := .publish }
    else if (t.segs i).full ∧ i ≠ sid then
      { t.setSeg i (ensureSeg impl (t.segs i)) with pc := .finRow sid i 0 }
    else { t with pc := .fin sid (i + 1) }
  | .finRow sid i docid =>
    if docid < cfg.rowLimit then
      { t.setSeg i (queryAndInsert impl cfg (t.segs i) docid) with
        pc := .finRow sid i (docid + 1) }
    else { t with pc := .fin sid (i + 1) }
  | .publish => { t with hashed := true, pc := .done }
  | .done => t

/-- An event: an insert, a delete, or a step of the build. -/
inductive BuildEvent where
  | insert (row : List LowData) (others : OtherIndexes)
  | del (sid docid : Nat)
  | build

def delRow (t : BuildTable I) (sid docid : Nat) : BuildTable I :=
  t.setSeg sid { t.segs sid with
    rows := (t.segs sid).rows.modify docid fun r => { r with live := false } }

def buildEvent (t : BuildTable I) : BuildEvent → BuildTable I
  | .insert row others => insertRow impl cfg t row others
  | .del sid docid => delRow t sid docid
  | .build => buildStep impl cfg t

def buildRun (events : List BuildEvent) : BuildTable I :=
  events.foldl (buildEvent impl cfg) emptyBuildTable

def insertedRows (events : List BuildEvent) : List (List LowData) :=
  events.filterMap fun
    | .insert row _ => some row
    | _ => none

/-- `table_ensure_index` on the empty table. -/
def ensuredTable : BuildTable I :=
  (buildStep impl cfg)^[cfg.maxSegmentNum + 4] emptyBuildTable

/-- The same inserts on a table that had the index before the first one. -/
def earlyRun (rows : List (List LowData)) : BuildTable I :=
  rows.foldl (fun t row => insertRow impl cfg t row .succeed) (ensuredTable impl cfg)

/-! ## §5. The index of a list of rows. -/

/-- The row `cols` is inserted into the index. -/
def insRow (x : I) (docid : Nat) (cols : List LowData) : I :=
  match cols.find? (isCol cfg) with
  | none => x
  | some c => (impl.insert x (adaptData cfg c) docid).1

def rowsIndex (rows : List (List LowData)) : I :=
  rows.zipIdx.foldl (fun x p => insRow impl cfg x p.2 p.1) impl.new

theorem rowsIndex_append (rows : List (List LowData)) (row : List LowData) :
    rowsIndex impl cfg (rows ++ [row]) =
      insRow impl cfg (rowsIndex impl cfg rows) rows.length row := by
  simp [rowsIndex, zipIdx_append]

theorem rowsIndex_take_succ {rows : List (List LowData)} {d : Nat} (h : d < rows.length) :
    rowsIndex impl cfg (rows.take (d + 1)) =
      insRow impl cfg (rowsIndex impl cfg (rows.take d)) d rows[d] := by
  rw [take_add_one, getElem?_eq_getElem h, Option.toList_some, rowsIndex_append,
    length_take_of_le h.le]

theorem insertCols_fst (x : I) (docid : Nat) (row : List LowData) (h : row.countP (isCol cfg) ≤ 1) :
    (insertCols impl cfg docid x row).1 = insRow impl cfg x docid row := by
  induction row with
  | nil => rfl
  | cons c cs ih =>
    by_cases hc : isCol cfg c = true
    · -- no other column has the name, so the rest of the loop does nothing
      have hrest : cs.countP (isCol cfg) = 0 := by
        rw [countP_cons_of_pos hc] at h
        omega
      have hnone : cs.find? (isCol cfg) = none := by
        rw [find?_eq_none]
        intro a ha
        simpa using countP_eq_zero.mp hrest a ha
      have hskip : ∀ y, (insertCols impl cfg docid y cs).1 = y := by
        intro y
        clear ih h
        induction cs with
        | nil => rfl
        | cons a as ih =>
          have ha : ¬ isCol cfg a = true := by
            intro ha
            rw [countP_cons_of_pos ha] at hrest
            omega
          rw [insertCols, if_neg ha]
          exact ih (by rwa [countP_cons_of_neg ha] at hrest)
            (by rwa [find?_cons_of_neg ha] at hnone)
      simp only [insertCols, insRow, if_pos hc, find?_cons_of_pos hc]
      split
      · exact hskip _
      · rfl
    · rw [countP_cons_of_neg hc] at h
      rw [insertCols, if_neg hc, ih h]
      simp only [insRow, find?_cons_of_neg hc]

/-- The index of the segment is that of its first `d` rows, and the build will
see the others. -/
def BuildSeg.Upto (s : BuildSeg I) (d : Nat) : Prop :=
  s.index = some (rowsIndex impl cfg (s.cols.take d)) ∧ ∀ r ∈ s.rows.drop d, r.live = true

def BuildSeg.Complete (s : BuildSeg I) : Prop := s.index = some (rowsIndex impl cfg s.cols)

def BuildSeg.Live (s : BuildSeg I) : Prop := ∀ r ∈ s.rows, r.live = true

variable {impl cfg}

@[simp] theorem BuildSeg.cols_length (s : BuildSeg I) : s.cols.length = s.rows.length := by
  simp [BuildSeg.cols]

variable {d : Nat} {s : BuildSeg I}

theorem BuildSeg.Upto.complete (h : s.Upto impl cfg d) (hd : s.rows.length ≤ d) :
    s.Complete impl cfg := by
  rw [BuildSeg.Complete, h.1, take_of_length_le (by simpa using hd)]

theorem BuildSeg.Complete.upto (h : s.Complete impl cfg) (hd : s.rows.length ≤ d) :
    s.Upto impl cfg d := by
  refine ⟨?_, ?_⟩
  · rw [h, take_of_length_le (by simpa using hd)]
  · rw [drop_eq_nil_of_le hd]
    intro r hr
    cases hr

theorem queryAndInsert_eq (hd : d < s.rows.length) (hlive : s.rows[d].live = true) {x : I}
    (hx : s.index = some x) :
    queryAndInsert impl cfg s d =
      { s with index := some (insRow impl cfg x d s.rows[d].cols) } := by
  rw [queryAndInsert, getElem?_eq_getElem hd]
  simp only [hlive, Bool.true_eq_false, if_false, insRow]
  cases hf : s.rows[d].cols.find? (isCol cfg) with
  | none => simp only [← hx]
  | some c => simp only [hx, Option.map_some]

theorem BuildSeg.Upto.next (h : s.Upto impl cfg d) (hd : d < s.rows.length) :
    ∃ x, queryAndInsert impl cfg s d = { s with index := some x } ∧
      BuildSeg.Upto impl cfg { s with index := some x } (d + 1) := by
  have hdrop : s.rows.drop d = s.rows[d] :: s.rows.drop (d + 1) := drop_eq_getElem_cons hd
  have hlive : s.rows[d].live = true := h.2 _ (hdrop ▸ mem_cons_self ..)
  refine ⟨_, queryAndInsert_eq hd hlive h.1, ?_, ?_⟩
  · show some _ = some (rowsIndex impl cfg (s.cols.take (d + 1)))
    rw [rowsIndex_take_succ impl cfg (by simpa using hd)]
    simp [BuildSeg.cols]
  · intro r hr
    exact h.2 r (hdrop ▸ mem_cons_of_mem _ hr)

/-- The catch-up pass completes an index that lags behind. -/
theorem BuildSeg.Upto.catchUp (h : s.Upto impl cfg (d + 1)) (hd : d < s.rows.length) :
    ∃ x, catchUp impl cfg s d = { s with index := some x } ∧
      BuildSeg.Complete impl cfg { s with index := some x } := by
  -- the loop has reached docid `d + 1 + n`
  have hloop : ∀ n, d + 1 + n ≤ s.rows.length →
      ∃ x, (List.range' (d + 1) n).foldl (queryAndInsert impl cfg) s = { s with index := some x } ∧
        BuildSeg.Upto impl cfg { s with index := some x } (d + 1 + n) := by
    intro n
    induction n with
    | zero =>
      intro _
      obtain ⟨x, hx⟩ : ∃ x, s.index = some x := ⟨_, h.1⟩
      refine ⟨x, ?_, ?_⟩
      · simp only [range'_zero, foldl_nil, ← hx]
      · simp only [← hx]
        exact h
    | succ n ih =>
      intro hn
      obtain ⟨x, hx, hup⟩ := ih (by omega)
      rw [range'_concat, foldl_concat, hx, Nat.one_mul]
      exact hup.next (show d + 1 + n < s.rows.length by omega)
  obtain ⟨x, hx, hup⟩ := hloop (s.rows.length - (d + 1)) (by omega)
  exact ⟨x, hx, hup.complete (show s.rows.length ≤ _ by omega)⟩

/-! ## §6. A row is added. -/

section Add

variable {s : BuildSeg I} {row : List LowData} {hashed : Bool}

theorem addRow_cols (hraw : cfg.storeRaw = true) :
    (addRow impl cfg s hashed row .succeed).cols = s.cols ++ [row] := by
  simp [addRow, BuildSeg.cols, hraw]

theorem addRow_index (hcols : row.countP (isCol cfg) ≤ 1) :
    (addRow impl cfg s true row .succeed).index =
      s.index.map fun x => insRow impl cfg x s.rows.length row := by
  cases hx : s.index with
  | none => simp [addRow, indexRow, hx]
  | some x => simp [addRow, indexRow, hx, insertCols_fst impl cfg x s.rows.length row hcols]

theorem addRow_unhashed (hraw : cfg.storeRaw = true) :
    addRow impl cfg s false row .succeed =
      { s with
        full := s.full || decide (s.rows.length + 1 = cfg.rowLimit)
        rows := s.rows ++ [⟨row, true⟩] } := by
  simp [addRow, indexRow, hraw]

theorem BuildSeg.Complete.addRow (h : s.Complete impl cfg) (hraw : cfg.storeRaw = true)
    (hcols : row.countP (isCol cfg) ≤ 1) :
    (addRow impl cfg s true row .succeed).Complete impl cfg := by
  rw [BuildSeg.Complete, addRow_index hcols, addRow_cols hraw, h, rowsIndex_append,
    BuildSeg.cols_length, Option.map_some]

theorem BuildSeg.Live.addRow (h : s.Live) (hraw : cfg.storeRaw = true) :
    (addRow impl cfg s false row .succeed).Live := by
  rw [addRow_unhashed hraw]
  intro r hr
  rcases mem_append.mp hr with hr | hr
  · exact h r hr
  · rw [mem_singleton.mp hr]

theorem BuildSeg.Upto.addRow {d : Nat} (h : s.Upto impl cfg d) (hd : d ≤ s.rows.length)
    (hraw : cfg.storeRaw = true) : (addRow impl cfg s false row .succeed).Upto impl cfg d := by
  refine ⟨?_, ?_⟩
  · rw [addRow_cols hraw, take_append_of_le_length (by simpa using hd), ← h.1, addRow_unhashed hraw]
  · rw [addRow_unhashed hraw]
    intro r hr
    rw [drop_append_of_le_length hd] at hr
    rcases mem_append.mp hr with hr | hr
    · exact h.2 r hr
    · rw [mem_singleton.mp hr]

end Add

variable (impl cfg) in
/-- Where a row goes: into the segment `j`, which is `base` before, and with or
without the index in `index_meta_hash`. -/
inductive Target (t : BuildTable I) : Nat → BuildSeg I → Bool → Prop where
  | here (hinit : (t.segs t.current).init = true)
      (hroom : (t.segs t.current).rows.length < cfg.rowLimit) :
      Target t t.current (t.segs t.current) t.hashed
  | first (hinit : (t.segs t.current).init = false) :
      Target t t.current (freshSeg impl t) t.hashed
  | roll (j : Nat) (hlt : j < cfg.maxSegmentNum) (hinit : (t.segs t.current).init = true)
      (hfull : cfg.rowLimit ≤ (t.segs t.current).rows.length) (hfree : (t.segs j).init = false) :
      Target t j (freshSeg impl t) (t.hashed || t.metaAdded)

/-- The table after `table_prepare_insert`. -/
def targeted (t : BuildTable I) (j : Nat) (s : BuildSeg I) (hashed : Bool) : BuildTable I :=
  { t with segs := Function.update t.segs j s, current := j, hashed := hashed }

theorem freeSeg_spec {t : BuildTable I} {j : Nat} (h : freeSeg cfg t = some j) :
    j < cfg.maxSegmentNum ∧ (t.segs j).init = false := by
  obtain ⟨i, hi, rfl⟩ := Option.map_eq_some_iff.mp h
  exact ⟨Nat.mod_lt _ cfg.max_pos, by simpa using find?_some hi⟩

theorem prepare_spec {t t' : BuildTable I} (h : prepare impl cfg t = some t') :
    ∃ j base hashed, Target impl cfg t j base hashed ∧
      t' = targeted t j base hashed := by
  simp only [prepare] at h
  by_cases hinit : (t.segs t.current).init = false
  · rw [if_pos hinit, Option.some.injEq] at h
    exact ⟨_, _, _, .first hinit, h.symm⟩
  · have hinit' : (t.segs t.current).init = true := by simpa using hinit
    rw [if_neg hinit] at h
    by_cases hfull : cfg.rowLimit ≤ (t.segs t.current).rows.length
    · rw [if_pos hfull, Option.map_eq_some_iff] at h
      obtain ⟨j, hj, rfl⟩ := h
      obtain ⟨hlt, hfree⟩ := freeSeg_spec hj
      exact ⟨j, _, _, .roll j hlt hinit' hfull hfree, rfl⟩
    · rw [if_neg hfull, Option.some.injEq] at h
      subst h
      refine ⟨_, _, _, .here hinit' (by omega), ?_⟩
      simp [targeted]

end Model

end Mile.DocDb
