/-
  Mile.DocDb.Table
  ────────────────
  **TABLES OF SEGMENTS** (`storage/docdb/table.c`).

  `table_prepare_insert` chooses segment and docid; `table_insert` stores the row, inserts it into
  the indexes and marks its docid.  When an index insert fails, the docid is given up.
-/
import Mile.DocDb.Segment
import Mile.Lib.Run

namespace Mile.DocDb

open Lib Common Function

/-! ## §1. The table. -/

/-- The fixed part of `struct table_manager`. -/
structure TableConfig where
  rowLimit : Nat
  maxSegmentNum : Nat
  storeRaw : Bool
  limit_lt : rowLimit < 2 ^ 32
  max_pos : 0 < maxSegmentNum

/-- `struct table_manager`. -/
structure Table (cfg : TableConfig) where
  deleted : Bool
  segmentCurrent : Nat
  segments : Nat → Segment
  seg_rowLimit : ∀ sid, (segments sid).rowLimit = cfg.rowLimit

variable {cfg : TableConfig}

/-- `table_init` in an empty work space. -/
def tableInit (cfg : TableConfig) : Table cfg :=
  ⟨false, 0, fun _ => segmentInit cfg.rowLimit cfg.limit_lt, fun _ => rfl⟩

namespace Table

def setSegment (t : Table cfg) (sid : Nat) (s : Segment) (h : s.rowLimit = cfg.rowLimit) :
    Table cfg :=
  { t with
    segments := update t.segments sid s
    seg_rowLimit := by
      intro i
      by_cases hi : i = sid
      · rw [hi, update_self, h]
      · rw [update_of_ne hi, t.seg_rowLimit] }

/-- What the environment decides when a segment is created: the time, whether
its directory is free, and whether its files can be opened. -/
structure NewSegment where
  now : Nat
  dirFree : Bool
  initOk : Bool

def clearSegment (t : Table cfg) (sid : Nat) : Table cfg :=
  ({ t with segmentCurrent := sid } : Table cfg).setSegment sid
    (segmentInit cfg.rowLimit cfg.limit_lt) rfl

/-- Open a segment that is not there: `create_time` and `SEGMENT_INIT` are set. -/
def startSegment (t : Table cfg) (sid now : Nat) : Table cfg :=
  let s := t.segments sid
  if s.metaData.createTime = 0 then
    t.setSegment sid { s with metaData := { s.metaData with createTime := now, init := true } }
      (t.seg_rowLimit sid)
  else t

/-- The search of `table_add_segment` for a free segment, from the current one
on. -/
def freeSegment (t : Table cfg) : Option Nat :=
  ((List.range cfg.maxSegmentNum).find? fun i =>
    !(t.segments ((i + t.segmentCurrent) % cfg.maxSegmentNum)).metaData.init).map
      fun i => (i + t.segmentCurrent) % cfg.maxSegmentNum

/-- `table_add_segment`; `exceed` tells `ERROR_EXCEED_LIMIT` from
`ERROR_SEGMENT_NOT_INIT`. -/
def addSegment (t : Table cfg) (exceed : Bool) (env : NewSegment) : Table cfg × Int :=
  if t.deleted then (t, ResultCode.errorTableDeleted.value)
  else
    match if exceed then t.freeSegment else some t.segmentCurrent with
    | none => (t, ResultCode.errorExceedSegmentNum.value)
    | some sid =>
      if env.dirFree = false ∨ env.initOk = false then
        (t.clearSegment sid, ResultCode.errorSegmentInitFailed.value)
      else ((t.clearSegment sid).startSegment sid env.now, ResultCode.success.value)

/-- Where the docid of an insert comes from: the table, or a binlog record
(`DOCID_BY_BINLOG`). -/
inductive DocidSource (cfg : TableConfig) where
  | bySelf
  | byBinlog (sid : Fin cfg.maxSegmentNum) (docid : UInt32)

/-- `table_prepare_insert`: the table, segment and docid, and the result. -/
def prepareInsert (t : Table cfg) (src : DocidSource cfg) (env : NewSegment) :
    Table cfg × (Nat × Nat) × Int :=
  if t.deleted then (t, (0, 0), ResultCode.errorTableDeleted.value)
  else
    match src with
    | .byBinlog sid docid =>
      let s := t.segments sid
      if s.metaData.init then
        ({ t with segmentCurrent := sid }, (sid, docid.toNat), ResultCode.success.value)
      else if env.initOk = false then
        (t.setSegment sid { s with metaData := noSegmentMeta } (t.seg_rowLimit sid),
          (sid, docid.toNat), ResultCode.errorSegmentInitFailed.value)
      else
        ({ t.startSegment sid env.now with segmentCurrent := sid }, (sid, docid.toNat),
          ResultCode.success.value)
    | .bySelf =>
      let s := t.segments t.segmentCurrent
      let r :=
        if s.metaData.init = false then t.addSegment false env
        else if s.exceedLimit then t.addSegment true env
        else (t, ResultCode.success.value)
      (r.1, (r.1.segmentCurrent, (r.1.segments r.1.segmentCurrent).metaData.rowCount), r.2)

end Table

/-! ## §2. Inserting. -/

/-- What the storage under `table_insert` returns: the row store, the index
inserts in their order, and the start of the thread for a full segment. -/
structure InsertRets where
  now : Nat
  dataRet : Int
  indexRets : List Int
  threadOk : Bool

/-- The `ret` of a `table_insert` that gets to its end. -/
def InsertRets.ret (rets : InsertRets) (storeRaw : Bool) : Int :=
  rets.indexRets.getLastD (if storeRaw then rets.dataRet else ResultCode.success.value)

/-- The flag `SEGMENT_FULL` is set when the last docid is given out. -/
def Segment.markFull (s : Segment) : Segment :=
  { s with metaData := { s.metaData with
      full := s.metaData.full || s.metaData.rowCount = s.rowLimit } }

/-- The part of `table_insert` that works on the segment. -/
def Segment.insertRow (storeRaw : Bool) (s : Segment) (docid : Nat) (rets : InsertRets) :
    Segment × Int :=
  if storeRaw ∧ rets.dataRet < 0 then (s.touch rets.now, rets.dataRet)
  else
    match rets.indexRets.find? (· < 0) with
    | some ret => ((s.touch rets.now).setRowcount docid, ret)
    | none =>
      let s' := ((s.touch rets.now).setDocidInserted docid).1.setRowcount docid
      (s'.markFull,
        if s'.metaData.rowCount = s.rowLimit ∧ rets.threadOk = false then
          ResultCode.errorMmapSwitch.value
        else rets.ret storeRaw)

abbrev InsertRets.Stored (rets : InsertRets) (storeRaw : Bool) : Prop :=
  ¬ (storeRaw = true ∧ rets.dataRet < 0)

def InsertRets.Indexed (rets : InsertRets) : Prop := ∀ ret ∈ rets.indexRets, 0 ≤ ret

instance (rets : InsertRets) : Decidable rets.Indexed :=
  inferInstanceAs (Decidable (∀ ret ∈ rets.indexRets, 0 ≤ ret))

section InsertRow

variable {storeRaw : Bool} (s : Segment) (docid : Nat) {rets : InsertRets}

theorem Segment.insertRow_not_stored (h : ¬ rets.Stored storeRaw) :
    (s.insertRow storeRaw docid rets).1 = s.touch rets.now := by
  unfold Segment.insertRow
  rw [if_pos (Decidable.not_not.mp h)]

theorem Segment.insertRow_not_indexed (h : rets.Stored storeRaw) (hi : ¬ rets.Indexed) :
    (s.insertRow storeRaw docid rets).1 = (s.touch rets.now).setRowcount docid := by
  unfold Segment.insertRow
  rw [if_neg h]
  cases hfind : rets.indexRets.find? (· < 0) with
  | some ret => rfl
  | none =>
    refine absurd (fun ret hret => ?_) hi
    simpa using List.find?_eq_none.mp hfind ret hret

theorem Segment.insertRow_indexed (h : rets.Stored storeRaw) (hi : rets.Indexed) :
    (s.insertRow storeRaw docid rets).1 =
      (((s.touch rets.now).setDocidInserted docid).1.setRowcount docid).markFull := by
  have hnone : rets.indexRets.find? (· < 0) = none :=
    List.find?_eq_none.mpr fun ret hret => by simpa using hi ret hret
  unfold Segment.insertRow
  rw [if_neg h, hnone]

theorem Segment.insertRow_stored (h : rets.Stored storeRaw) :
    (s.insertRow storeRaw docid rets).1.delBitmap.rows =
        (if rets.Indexed ∧ docid < s.rowLimit then insert docid s.delBitmap.rows
          else s.delBitmap.rows) ∧
      (s.insertRow storeRaw docid rets).1.metaData.rowCount = (docid + 1) % 2 ^ 32 ∧
      (s.insertRow storeRaw docid rets).1.metaData.delCount = s.metaData.delCount := by
  by_cases hi : rets.Indexed
  · rw [s.insertRow_indexed docid h hi]
    simp only [hi, true_and]
    refine ⟨(s.touch rets.now).setDocidInserted_rows, rfl, ?_⟩
    show ((s.touch rets.now).setDocidInserted docid).1.metaData.delCount = s.metaData.delCount
    rw [Segment.setDocidInserted_metaData]
    rfl
  · rw [s.insertRow_not_indexed docid h hi, if_neg (fun hc => hi hc.1)]
    exact ⟨rfl, rfl, rfl⟩

theorem Segment.insertRow_rowLimit (storeRaw : Bool) (rets : InsertRets) :
    (s.insertRow storeRaw docid rets).1.rowLimit = s.rowLimit := by
  by_cases h : rets.Stored storeRaw
  · by_cases hi : rets.Indexed
    · rw [s.insertRow_indexed docid h hi]
      exact Segment.setDocidInserted_rowLimit (s.touch rets.now)
    · rw [s.insertRow_not_indexed docid h hi]
      rfl
  · rw [s.insertRow_not_stored docid h]
    rfl

theorem Segment.insertRow_init (storeRaw : Bool) (rets : InsertRets) :
    (s.insertRow storeRaw docid rets).1.metaData.init = s.metaData.init := by
  by_cases h : rets.Stored storeRaw
  · by_cases hi : rets.Indexed
    · rw [s.insertRow_indexed docid h hi]
      show ((s.touch rets.now).setDocidInserted docid).1.metaData.init = _
      rw [Segment.setDocidInserted_metaData]
      rfl
    · rw [s.insertRow_not_indexed docid h hi]
      rfl
  · rw [s.insertRow_not_stored docid h]
    rfl

/-- The inserts that keep the counters: the docid is the next one and gets
marked, or `row_count` stays as it is and no row is marked. -/
def Segment.InsertClean (storeRaw : Bool) (s : Segment) (docid : Nat) (rets : InsertRets) : Prop :=
  ¬ rets.Stored storeRaw ∨
    if rets.Indexed ∧ docid < s.rowLimit ∧ docid ∉ s.delBitmap.rows then
      docid = s.metaData.rowCount
    else (docid + 1) % 2 ^ 32 = s.metaData.rowCount

variable {s docid}

/-- A clean insert keeps the counters. -/
theorem Segment.Counted.insertRow (h : s.Counted) (hclean : s.InsertClean storeRaw docid rets) :
    (s.insertRow storeRaw docid rets).1.Counted := by
  have hlim := s.insertRow_rowLimit docid storeRaw rets
  have hle := h.rowCount_le
  have hbound := s.limit_lt
  have hcount := h.count
  by_cases hst : rets.Stored storeRaw
  · obtain ⟨hrows, hrow, hdel⟩ := s.insertRow_stored docid hst
    have hcl := hclean.resolve_left (fun hc => hc hst)
    by_cases hadd : rets.Indexed ∧ docid < s.rowLimit ∧ docid ∉ s.delBitmap.rows
    · -- the next docid is marked
      rw [if_pos hadd] at hcl
      rw [if_pos ⟨hadd.1, hadd.2.1⟩] at hrows
      have hnext : (docid + 1) % 2 ^ 32 = docid + 1 := Nat.mod_eq_of_lt (by omega)
      refine ⟨?_, ?_, ?_⟩
      · rw [hrows, hrow, hnext]
        intro i hi
        rcases Finset.mem_insert.mp hi with rfl | hold
        · omega
        · have := h.rows_lt i hold
          omega
      · rw [hrow, hlim, hnext]
        omega
      · rw [hrows, hrow, hdel, hnext, Finset.card_insert_of_notMem hadd.2.2]
        omega
    · -- no row is added
      rw [if_neg hadd] at hcl
      have hsame : (s.insertRow storeRaw docid rets).1.delBitmap.rows = s.delBitmap.rows := by
        rw [hrows]
        split_ifs with hc
        · refine Finset.insert_eq_of_mem ?_
          by_contra hnot
          exact hadd ⟨hc.1, hc.2, hnot⟩
        · rfl
      exact ⟨by rw [hsame, hrow, hcl]; exact h.rows_lt, by rw [hrow, hcl, hlim]; exact hle,
        by rw [hsame, hrow, hdel, hcl]; exact hcount⟩
  · rw [s.insertRow_not_stored docid hst]
    exact ⟨h.rows_lt, h.rowCount_le, h.count⟩

/-- Only clean inserts keep them. -/
theorem Segment.Counted.insertClean (h : s.Counted)
    (hmatch : (s.insertRow storeRaw docid rets).1.CountersMatch) :
    s.InsertClean storeRaw docid rets := by
  by_cases hst : rets.Stored storeRaw
  · refine .inr ?_
    obtain ⟨hrows, hrow, hdel⟩ := s.insertRow_stored docid hst
    have hle := h.rowCount_le
    have hbound := s.limit_lt
    have hcount := h.count
    have hcard := hmatch.1
    rw [bitmarkCount_eq, Segment.recordNum, hrow, hdel, hrows] at hcard
    split_ifs with hadd
    · rw [if_pos ⟨hadd.1, hadd.2.1⟩, Finset.card_insert_of_notMem hadd.2.2] at hcard
      omega
    · have hsame : (if rets.Indexed ∧ docid < s.rowLimit then insert docid s.delBitmap.rows
          else s.delBitmap.rows) = s.delBitmap.rows := by
        split_ifs with hc
        · refine Finset.insert_eq_of_mem ?_
          by_contra hnot
          exact hadd ⟨hc.1, hc.2, hnot⟩
        · rfl
      rw [hsame] at hcard
      omega
  · exact .inl hst

end InsertRow

/-! ## §3. Calls on a table. -/

namespace Table

/-- `table_insert`. -/
def insert (t : Table cfg) (sid docid : Nat) (rets : InsertRets) : Table cfg × Int :=
  if t.deleted then (t, ResultCode.errorTableDeleted.value)
  else if (t.segments sid).metaData.init = false then (t, ResultCode.errorSegmentNotInit.value)
  else
    let r := (t.segments sid).insertRow cfg.storeRaw docid rets
    (t.setSegment sid r.1 ((Segment.insertRow_rowLimit ..).trans (t.seg_rowLimit sid)), r.2)

/-- `table_del_docid`. -/
def delDocid (t : Table cfg) (sid docid now : Nat) : Table cfg × Int :=
  if t.deleted then (t, ResultCode.errorTableDeleted.value)
  else if (t.segments sid).metaData.init = false then (t, ResultCode.errorSegmentNotInit.value)
  else
    let r := (t.segments sid).delDocid now docid
    (t.setSegment sid r.1 ((Segment.delDocid_rowLimit ..).trans (t.seg_rowLimit sid)), r.2)

/-- `table_recover`. -/
def recover (t : Table cfg) (sid docid : Nat) (dataRet indexRet : Int) : Table cfg × Int :=
  if t.deleted then (t, ResultCode.errorTableDeleted.value)
  else if (t.segments sid).metaData.init = false then (t, ResultCode.errorSegmentNotInit.value)
  else
    let r := (t.segments sid).recover docid dataRet indexRet
    (t.setSegment sid r.1 ((Segment.recover_rowLimit ..).trans (t.seg_rowLimit sid)), r.2)

/-- The record count of one segment in `table_get_record_num`. -/
def getRecordNum (t : Table cfg) (sid : Nat) : Nat :=
  if (t.segments sid).metaData.init then (t.segments sid).recordNum else 0

end Table

/-- One call.  An insert is `table_prepare_insert` and, when that succeeds,
`table_insert` of the docid it chose; when the binlog cannot be written in
between, there is only the first. -/
inductive TableOp (cfg : TableConfig) where
  | prepare (src : Table.DocidSource cfg) (env : Table.NewSegment)
  | insert (src : Table.DocidSource cfg) (env : Table.NewSegment) (rets : InsertRets)
  | delDocid (sid : Fin cfg.maxSegmentNum) (docid : UInt32) (now : Nat)
  | recover (sid : Fin cfg.maxSegmentNum) (docid : UInt32) (dataRet indexRet : Int)

def tableStep (t : Table cfg) : TableOp cfg → Table cfg
  | .prepare src env => (t.prepareInsert src env).1
  | .insert src env rets =>
    let p := t.prepareInsert src env
    if p.2.2 = ResultCode.success.value then (p.1.insert p.2.1.1 p.2.1.2 rets).1 else p.1
  | .delDocid sid docid now => (t.delDocid sid docid.toNat now).1
  | .recover sid docid dataRet indexRet => (t.recover sid docid.toNat dataRet indexRet).1

def tableRun (cfg : TableConfig) (ops : List (TableOp cfg)) : Table cfg :=
  ops.foldl tableStep (tableInit cfg)

/-- The calls after which the counters of a segment still match: those that do
not come to it, and those that are clean on it. -/
def CleanOp (t : Table cfg) : TableOp cfg → Prop
  | .prepare _ _ => True
  | .insert src env rets =>
    let p := t.prepareInsert src env
    p.2.2 = ResultCode.success.value → p.1.deleted = false →
      (p.1.segments p.2.1.1).metaData.init = true →
      (p.1.segments p.2.1.1).InsertClean cfg.storeRaw p.2.1.2 rets
  | .delDocid _ _ _ => True
  | .recover sid docid dataRet indexRet =>
    t.deleted = false → (t.segments sid).metaData.init = true →
      (t.segments sid).RecoverClean docid.toNat dataRet indexRet

/-! ## §4. The counters along a run. -/

/-- The invariant of a run: every segment is counted, and one that is not there
has no rows. -/
structure TableCounted (t : Table cfg) : Prop where
  counted : ∀ sid, (t.segments sid).Counted
  absent : ∀ sid, (t.segments sid).metaData.init = false →
    (t.segments sid).metaData = noSegmentMeta ∧ (t.segments sid).delBitmap.rows = ∅

section Inv

variable {t : Table cfg}

theorem tableInit_counted : TableCounted (tableInit cfg) where
  counted := fun _ => segmentInit_counted ..
  absent := fun _ _ => ⟨rfl, bitmarkInit_noFile_rows _⟩

theorem TableCounted.setCurrent (h : TableCounted t) (sid : Nat) :
    TableCounted ({ t with segmentCurrent := sid } : Table cfg) :=
  ⟨h.counted, h.absent⟩

theorem Table.setSegment_segments (t : Table cfg) (sid : Nat) (s : Segment)
    (hlim : s.rowLimit = cfg.rowLimit) (i : Nat) :
    (t.setSegment sid s hlim).segments i = if i = sid then s else t.segments i := by
  show update t.segments sid s i = _
  split_ifs with hi
  · rw [hi, update_self]
  · exact update_of_ne hi ..

variable (h : TableCounted t)

include h

theorem TableCounted.setSegment {sid : Nat} {s : Segment} (hlim : s.rowLimit = cfg.rowLimit)
    (hs : s.Counted)
    (habs : s.metaData.init = false → s.metaData = noSegmentMeta ∧ s.delBitmap.rows = ∅) :
    TableCounted (t.setSegment sid s hlim) := by
  constructor
  · intro i
    rw [Table.setSegment_segments]
    split_ifs
    · exact hs
    · exact h.counted i
  · intro i
    rw [Table.setSegment_segments]
    split_ifs
    · exact habs
    · exact h.absent i

theorem TableCounted.clearSegment (sid : Nat) : TableCounted (t.clearSegment sid) :=
  (h.setCurrent sid).setSegment rfl (segmentInit_counted ..)
    fun _ => ⟨rfl, bitmarkInit_noFile_rows _⟩

theorem TableCounted.startSegment (sid now : Nat) : TableCounted (t.startSegment sid now) := by
  have hs := h.counted sid
  unfold Table.startSegment
  simp only
  split_ifs
  · exact h.setSegment _ ⟨hs.rows_lt, hs.rowCount_le, hs.count⟩ (absurd · Bool.false_ne_true.symm)
  · exact h

theorem TableCounted.addSegment (exceed : Bool) (env : Table.NewSegment) :
    TableCounted (t.addSegment exceed env).1 := by
  unfold Table.addSegment
  split
  · exact h
  · split
    · exact h
    · split
      · exact h.clearSegment _
      · exact (h.clearSegment _).startSegment _ env.now

theorem TableCounted.prepareInsert (src : Table.DocidSource cfg) (env : Table.NewSegment) :
    TableCounted (t.prepareInsert src env).1 := by
  unfold Table.prepareInsert
  split
  · exact h
  · cases src with
    | bySelf =>
      simp only
      split_ifs
      · exact h.addSegment false env
      · exact h.addSegment true env
      · exact h
    | byBinlog sid docid =>
      simp only
      split_ifs with hinit
      · exact h.setCurrent sid
      · -- zero metadata and no rows
        obtain ⟨-, hrows⟩ := h.absent sid (Bool.eq_false_iff.mpr hinit)
        refine h.setSegment (s := { t.segments sid with metaData := noSegmentMeta })
          (t.seg_rowLimit sid) ⟨?_, Nat.zero_le _, ?_⟩ (fun _ => ⟨rfl, hrows⟩)
        · rw [hrows]
          simp
        · rw [hrows]
          rfl
      · exact (h.startSegment sid env.now).setCurrent sid

theorem TableCounted.present {sid : Nat} {s : Segment} (hlim : s.rowLimit = cfg.rowLimit)
    (hs : s.Counted) (hinit : s.metaData.init = (t.segments sid).metaData.init)
    (hthere : ¬ (t.segments sid).metaData.init = false) : TableCounted (t.setSegment sid s hlim) :=
  h.setSegment hlim hs fun hf => absurd (hinit.symm.trans hf) hthere

/-- The step lemma of the counters. -/
theorem TableCounted.step {op : TableOp cfg} (hclean : CleanOp t op) :
    TableCounted (tableStep t op) := by
  cases op with
  | prepare src env => exact h.prepareInsert src env
  | insert src env rets =>
    have hp := h.prepareInsert src env
    simp only [tableStep]
    split_ifs with hok
    · have hclean' := hclean hok
      generalize t.prepareInsert src env = p at hp hclean'
      unfold Table.insert
      split_ifs with hdel hinit
      · exact hp
      · exact hp
      · have hcl := hclean' (Bool.eq_false_iff.mpr hdel) (by simpa using hinit)
        exact hp.present ((Segment.insertRow_rowLimit ..).trans (p.1.seg_rowLimit _))
          ((hp.counted _).insertRow hcl) (Segment.insertRow_init ..) hinit
    · exact hp
  | delDocid sid docid now =>
    simp only [tableStep, Table.delDocid]
    split_ifs with hdel hinit
    · exact h
    · exact h
    · exact h.present ((Segment.delDocid_rowLimit ..).trans (t.seg_rowLimit _))
        ((h.counted _).delDocid now docid.toNat) (Segment.delDocid_init ..) hinit
  | recover sid docid dataRet indexRet =>
    simp only [tableStep, Table.recover]
    split_ifs with hdel hinit
    · exact h
    · exact h
    · have hcl := hclean (Bool.eq_false_iff.mpr hdel) (by simpa using hinit)
      exact h.present ((Segment.recover_rowLimit ..).trans (t.seg_rowLimit _))
        ((h.counted _).recover hcl) (Segment.recover_init ..) hinit

/-- Only clean operations keep them. -/
theorem TableCounted.cleanOp {op : TableOp cfg}
    (hmatch : ∀ sid, ((tableStep t op).segments sid).CountersMatch) : CleanOp t op := by
  cases op with
  | prepare src env => trivial
  | insert src env rets =>
    have hp := h.prepareInsert src env
    intro hok hdel hinit
    have hm := hmatch (t.prepareInsert src env).2.1.1
    simp only [tableStep] at hm
    rw [if_pos hok, Table.insert, if_neg (by rw [hdel]; decide), if_neg (by rw [hinit]; decide),
      Table.setSegment_segments, if_pos rfl] at hm
    exact (hp.counted _).insertClean hm
  | delDocid sid docid now => trivial
  | recover sid docid dataRet indexRet =>
    intro hdel hinit
    have hm := hmatch sid
    simp only [tableStep] at hm
    rw [Table.recover, if_neg (by rw [hdel]; decide), if_neg (by rw [hinit]; decide),
      Table.setSegment_segments, if_pos rfl] at hm
    exact (h.counted _).recoverClean hm

end Inv

/-- **The counters match throughout a run** of calls on a new table if and only
if all its calls are clean. -/
theorem segment_counters_match (cfg : TableConfig) (ops : List (TableOp cfg)) :
    (∀ pre, pre <+: ops → ∀ sid, ((tableRun cfg pre).segments sid).CountersMatch) ↔
      ∀ pre op, pre ++ [op] <+: ops → CleanOp (tableRun cfg pre) op :=
  foldl_good_iff (fun _ h sid => (h.counted sid).countersMatch) (fun _ _ h hc => h.step hc)
    (fun _ _ h hm => h.cleanOp hm) tableInit_counted ops

def twoRowTable : TableConfig := ⟨2, 1, true, by decide, by decide⟩

/-- An insert whose index insert fails: the docid is given up but not counted
as deleted, so the table reports one record and has none. -/
theorem failed_index_insert_counted :
    ¬ ((tableRun twoRowTable
        [.insert .bySelf ⟨1, true, true⟩
          ⟨1, 0, [ResultCode.errorHashConflict.value], true⟩]).segments 0).CountersMatch := by
  decide +kernel

end Mile.DocDb
