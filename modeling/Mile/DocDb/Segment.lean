/-
  Mile.DocDb.Segment
  ──────────────────
  **SEGMENTS AND THEIR COUNTERS** (`storage/docdb/segment.c`).

  `row_count` counts the docids given out, `del_count` the rows deleted; `del_bitmap` has a bit
  for each row that was inserted and not deleted.
-/
import Mile.DocDb.Bitmark

namespace Mile.DocDb

open Lib Common

/-! ## §1. The segment. -/

/-- `struct segment_meta_data`, with its flags `SEGMENT_INIT`, `SEGMENT_FULL`
and `SEGMENT_COMPRESS`. -/
structure SegmentMeta where
  createTime : Nat
  modifyTime : Nat
  init : Bool
  full : Bool
  compress : Bool
  rowCount : Nat
  delCount : Nat

def noSegmentMeta : SegmentMeta := ⟨0, 0, false, false, false, 0, 0⟩

/-- `struct segment_manager` with its metadata.  Counters and limits are 32-bit
numbers. -/
structure Segment where
  rowLimit : Nat
  metaData : SegmentMeta
  delBitmap : Bitmark
  limit_lt : rowLimit < 2 ^ 32
  del_rowLimit : delBitmap.rowLimit = rowLimit

/-- `segment_init` on new files, with metadata that was set to zero. -/
def segmentInit (rowLimit : Nat) (h : rowLimit < 2 ^ 32) : Segment :=
  ⟨rowLimit, noSegmentMeta, bitmarkInit rowLimit noFile, h, rfl⟩

namespace Segment

def withDelBitmap (s : Segment) (b : Bitmark) (h : b.rowLimit = s.delBitmap.rowLimit) : Segment :=
  { s with delBitmap := b, del_rowLimit := h.trans s.del_rowLimit }

/-- `segment_set_rowcount`. -/
def setRowcount (s : Segment) (docid : Nat) : Segment :=
  { s with metaData := { s.metaData with rowCount := (docid + 1) % 2 ^ 32 } }

/-- `Mile_AtomicAddPtr(&meta_data->del_count, 1)`. -/
def countDeleted (s : Segment) : Segment :=
  { s with metaData := { s.metaData with delCount := (s.metaData.delCount + 1) % 2 ^ 32 } }

/-- The metadata field `modify_time` is set. -/
def touch (s : Segment) (now : Nat) : Segment :=
  { s with metaData := { s.metaData with modifyTime := now } }

/-- `segment_exceed_limit`. -/
def exceedLimit (s : Segment) : Bool := s.rowLimit ≤ s.metaData.rowCount

/-- `segment_del_docid`. -/
def delDocid (s : Segment) (now docid : Nat) : Segment × Int :=
  if s.rowLimit ≤ docid then (s.touch now, ResultCode.errorExceedLimit.value)
  else
    let s' := (s.touch now).withDelBitmap (bitmarkClear s.delBitmap docid).1
      (bitmarkClear_rowLimit s.delBitmap)
    if (bitmarkClear s.delBitmap docid).2 = 1 then (s'.countDeleted, ResultCode.success.value)
    else (s', (bitmarkClear s.delBitmap docid).2)

/-- `segment_is_docid_deleted`: 0 for a row that is there. -/
def isDocidDeleted (s : Segment) (docid : Nat) : Int :=
  if s.rowLimit ≤ docid then ResultCode.errorExceedLimit.value
  else bitmarkQuery s.delBitmap docid

/-- `segment_set_docid_inserted`. -/
def setDocidInserted (s : Segment) (docid : Nat) : Segment × Int :=
  if s.rowLimit ≤ docid then (s, ResultCode.errorExceedLimit.value)
  else
    (s.withDelBitmap (bitmarkSet s.delBitmap docid).1 (bitmarkSet_rowLimit s.delBitmap),
      (bitmarkSet s.delBitmap docid).2)

/-- `segment_recover`; `dataRet` and `indexRet` are what the recovery of the
stored rows and of the indexes return. -/
def recover (s : Segment) (docid : Nat) (dataRet indexRet : Int) : Segment × Int :=
  if s.metaData.compress then (s, 0)
  else
    let s' := s.withDelBitmap (bitmarkRecover s.delBitmap docid).1
      (bitmarkRecover_rowLimit s.delBitmap)
    if (bitmarkRecover s.delBitmap docid).2 ≠ 0 then (s', -1)
    else if dataRet ≠ 0 then (s', -1)
    else if indexRet ≠ 0 then (s', -1)
    else
      ({ s' with metaData := { s'.metaData with
          rowCount := docid
          delCount := docid - bitmarkCount s'.delBitmap } }, 0)

/-- `row_count - del_count`, a 32-bit difference. -/
def recordNum (s : Segment) : Nat := (s.metaData.rowCount + 2 ^ 32 - s.metaData.delCount) % 2 ^ 32

def liveRows (s : Segment) : Finset Nat :=
  (Finset.range s.metaData.rowCount).filter fun docid => s.isDocidDeleted docid = 0

end Segment

/-! ## §2. What the operations change. -/

section Effects

variable (s : Segment) {docid : Nat}

theorem Segment.setDocidInserted_rows :
    (s.setDocidInserted docid).1.delBitmap.rows =
      if docid < s.rowLimit then insert docid s.delBitmap.rows else s.delBitmap.rows := by
  unfold Segment.setDocidInserted
  by_cases hlt : docid < s.rowLimit
  · rw [if_neg (by omega), if_pos hlt]
    exact rows_set s.delBitmap (by rw [s.del_rowLimit]; exact hlt)
  · rw [if_pos (by omega), if_neg hlt]

@[simp] theorem Segment.setDocidInserted_metaData :
    (s.setDocidInserted docid).1.metaData = s.metaData := by
  unfold Segment.setDocidInserted
  split_ifs <;> rfl

@[simp] theorem Segment.setDocidInserted_rowLimit :
    (s.setDocidInserted docid).1.rowLimit = s.rowLimit := by
  unfold Segment.setDocidInserted
  split_ifs <;> rfl

theorem Segment.mem_rows_iff (h : docid < s.rowLimit) :
    docid ∈ s.delBitmap.rows ↔ s.delBitmap.bit docid = true := by
  have hlt : docid < s.delBitmap.rowLimit := by rw [s.del_rowLimit]; exact h
  rw [Bitmark.mem_rows]
  exact ⟨And.right, fun hbit => ⟨s.delBitmap.lt_mmap_of_lt hlt, hbit⟩⟩

theorem Segment.isDocidDeleted_eq_zero :
    s.isDocidDeleted docid = 0 ↔ docid < s.rowLimit ∧ docid ∈ s.delBitmap.rows := by
  unfold Segment.isDocidDeleted
  by_cases hlt : docid < s.rowLimit
  · rw [if_neg (by omega), bitmarkQuery_eq _ (by rw [s.del_rowLimit]; exact hlt),
      s.mem_rows_iff hlt]
    cases s.delBitmap.bit docid <;> simp [hlt]
  · rw [if_pos (by omega)]
    exact ⟨fun h0 => absurd h0 (by decide), fun h0 => absurd h0.1 hlt⟩

/-- A row is deleted, or was not there. -/
theorem Segment.delDocid_cases (now docid : Nat) :
    (docid ∈ s.delBitmap.rows ∧
      (s.delDocid now docid).1.delBitmap.rows = s.delBitmap.rows.erase docid ∧
      (s.delDocid now docid).1.metaData =
        { s.metaData with modifyTime := now, delCount := (s.metaData.delCount + 1) % 2 ^ 32 }) ∨
    ((s.delDocid now docid).1.delBitmap.rows = s.delBitmap.rows ∧
      (s.delDocid now docid).1.metaData = { s.metaData with modifyTime := now }) := by
  unfold Segment.delDocid
  by_cases hlt : docid < s.rowLimit
  · have hmap : docid < s.delBitmap.rowLimit := by rw [s.del_rowLimit]; exact hlt
    rw [if_neg (by omega)]
    simp only [bitmarkClear_ret _ hmap]
    cases hbit : s.delBitmap.bit docid with
    | true => exact .inl ⟨(s.mem_rows_iff hlt).mpr hbit, rows_clear _ hmap, rfl⟩
    | false =>
      refine .inr ⟨(rows_clear _ hmap).trans (Finset.erase_eq_of_notMem ?_), rfl⟩
      rw [s.mem_rows_iff hlt, hbit]
      exact Bool.false_ne_true
  · rw [if_pos (by omega)]
    exact .inr ⟨rfl, rfl⟩

@[simp] theorem Segment.delDocid_rowLimit (now : Nat) :
    (s.delDocid now docid).1.rowLimit = s.rowLimit := by
  unfold Segment.delDocid
  by_cases hlt : s.rowLimit ≤ docid
  · rw [if_pos hlt]
    rfl
  · rw [if_neg hlt]
    show (if _ then _ else _ : Segment × Int).1.rowLimit = _
    split_ifs <;> rfl

theorem Segment.delDocid_init (now docid : Nat) :
    (s.delDocid now docid).1.metaData.init = s.metaData.init := by
  rcases s.delDocid_cases now docid with ⟨-, -, hmeta⟩ | ⟨-, hmeta⟩
  · rw [hmeta]
  · rw [hmeta]

end Effects

/-! ## §3. The invariant. -/

/-- The counters describe the bit map: every row of the map was given out, and
each row that was given out is in the map or was counted as deleted. -/
structure Segment.Counted (s : Segment) : Prop where
  rows_lt : ∀ i ∈ s.delBitmap.rows, i < s.metaData.rowCount
  rowCount_le : s.metaData.rowCount ≤ s.rowLimit
  count : s.delBitmap.rows.card + s.metaData.delCount = s.metaData.rowCount

section Invariant

variable {s : Segment}

theorem segmentInit_counted (rowLimit : Nat) (h : rowLimit < 2 ^ 32) :
    (segmentInit rowLimit h).Counted where
  rows_lt := by simp [segmentInit]
  rowCount_le := Nat.zero_le _
  count := by simp [segmentInit, noSegmentMeta]

theorem Segment.Counted.recordNum_eq (h : s.Counted) : s.recordNum = s.delBitmap.rows.card := by
  have hle := h.rowCount_le
  have hlt := s.limit_lt
  have hcount := h.count
  unfold Segment.recordNum
  omega

theorem Segment.Counted.liveRows_card (h : s.Counted) : s.liveRows.card = s.recordNum := by
  rw [h.recordNum_eq]
  congr 1
  ext i
  unfold Segment.liveRows
  rw [Finset.mem_filter, Finset.mem_range, s.isDocidDeleted_eq_zero]
  refine ⟨fun hi => hi.2.2, fun hi => ?_⟩
  have hlt := h.rows_lt i hi
  exact ⟨hlt, Nat.lt_of_lt_of_le hlt h.rowCount_le, hi⟩

theorem Segment.Counted.delDocid (h : s.Counted) (now docid : Nat) :
    (s.delDocid now docid).1.Counted := by
  have hcount := h.count
  have hle := h.rowCount_le
  have hlim := s.limit_lt
  rcases s.delDocid_cases now docid with ⟨hmem, hrows, hmeta⟩ | ⟨hrows, hmeta⟩
  · -- the row moves from the map to the deleted ones
    have hcard := Finset.card_erase_add_one hmem
    refine ⟨?_, ?_, ?_⟩ <;> rw [hmeta]
    · rw [hrows]
      exact fun i hi => h.rows_lt i (Finset.mem_of_mem_erase hi)
    · rw [s.delDocid_rowLimit]
      exact hle
    · rw [hrows]
      show _ + (s.metaData.delCount + 1) % 2 ^ 32 = s.metaData.rowCount
      rw [Nat.mod_eq_of_lt (by omega)]
      omega
  · refine ⟨?_, ?_, ?_⟩ <;> rw [hmeta]
    · rw [hrows]
      exact h.rows_lt
    · rw [s.delDocid_rowLimit]
      exact hle
    · rw [hrows]
      exact hcount

/-- Recovery refuses, or cuts the rows from a docid on. -/
theorem Segment.recover_cases (s : Segment) (docid : Nat) (dataRet indexRet : Int) :
    ((s.metaData.compress = true ∨ s.rowLimit ≤ docid) ∧
      (s.recover docid dataRet indexRet).1.delBitmap.rows = s.delBitmap.rows ∧
      (s.recover docid dataRet indexRet).1.metaData = s.metaData) ∨
    (s.metaData.compress = false ∧ docid < s.rowLimit ∧
      (s.recover docid dataRet indexRet).1.delBitmap.rows = s.delBitmap.rows.filter (· < docid) ∧
      (s.recover docid dataRet indexRet).1.metaData =
        if dataRet = 0 ∧ indexRet = 0 then
          { s.metaData with
            rowCount := docid
            delCount := docid - (s.delBitmap.rows.filter (· < docid)).card }
        else s.metaData) := by
  unfold Segment.recover
  by_cases hcomp : s.metaData.compress = true
  · rw [if_pos hcomp]
    exact .inl ⟨.inl hcomp, rfl, rfl⟩
  · rw [if_neg hcomp]
    by_cases hlt : docid < s.rowLimit
    · have hmap : docid < s.delBitmap.rowLimit := by rw [s.del_rowLimit]; exact hlt
      have hret : (bitmarkRecover s.delBitmap docid).2 = 0 := by
        unfold bitmarkRecover
        rw [if_neg (by omega)]
      have hrows := rows_recover s.delBitmap hmap
      have hcount : bitmarkCount (bitmarkRecover s.delBitmap docid).1 =
          (s.delBitmap.rows.filter (· < docid)).card := by rw [bitmarkCount_eq, hrows]
      refine .inr ⟨Bool.eq_false_iff.mpr hcomp, hlt, ?_⟩
      simp only [hret, ne_eq, not_true_eq_false, if_false]
      by_cases hd : dataRet = 0
      · by_cases hx : indexRet = 0
        · simp only [hd, hx, not_true_eq_false, if_false, and_self, if_true]
          refine ⟨hrows, ?_⟩
          rw [← hcount]
          rfl
        · simp only [hd, hx, not_true_eq_false, not_false_eq_true, if_false, if_true, and_false]
          exact ⟨hrows, rfl⟩
      · simp only [hd, not_false_eq_true, if_true, false_and, if_false]
        exact ⟨hrows, rfl⟩
    · have hret : bitmarkRecover s.delBitmap docid =
          (s.delBitmap, ResultCode.errorExceedLimit.value) := by
        unfold bitmarkRecover
        rw [if_pos (by rw [s.del_rowLimit]; omega)]
      refine .inl ⟨.inr (by omega), ?_⟩
      simp only [hret]
      rw [if_pos (by decide)]
      exact ⟨rfl, rfl⟩

@[simp] theorem Segment.recover_rowLimit (s : Segment) (docid : Nat) (dataRet indexRet : Int) :
    (s.recover docid dataRet indexRet).1.rowLimit = s.rowLimit := by
  unfold Segment.recover
  by_cases hcomp : s.metaData.compress = true
  · rw [if_pos hcomp]
  · rw [if_neg hcomp]
    show (if _ then _ else _ : Segment × Int).1.rowLimit = _
    split_ifs <;> rfl

theorem Segment.recover_init (s : Segment) (docid : Nat) (dataRet indexRet : Int) :
    (s.recover docid dataRet indexRet).1.metaData.init = s.metaData.init := by
  rcases s.recover_cases docid dataRet indexRet with ⟨-, -, hmeta⟩ | ⟨-, -, -, hmeta⟩
  · rw [hmeta]
  · rw [hmeta]
    split_ifs <;> rfl

/-- The recoveries that keep the counters: those that change nothing, get
through, or stop half-way without having removed a row. -/
def Segment.RecoverClean (s : Segment) (docid : Nat) (dataRet indexRet : Int) : Prop :=
  s.metaData.compress = true ∨ s.rowLimit ≤ docid ∨ (dataRet = 0 ∧ indexRet = 0) ∨
    ∀ i ∈ s.delBitmap.rows, i < docid

/-- A clean recovery keeps the counters. -/
theorem Segment.Counted.recover (h : s.Counted) {docid : Nat} {dataRet indexRet : Int}
    (hclean : s.RecoverClean docid dataRet indexRet) :
    (s.recover docid dataRet indexRet).1.Counted := by
  have hlim := s.recover_rowLimit docid dataRet indexRet
  rcases s.recover_cases docid dataRet indexRet with
    ⟨-, hrows, hmeta⟩ | ⟨hcomp, hlt, hrows, hmeta⟩
  · exact ⟨by rw [hrows, hmeta]; exact h.rows_lt, by rw [hmeta, hlim]; exact h.rowCount_le,
      by rw [hrows, hmeta]; exact h.count⟩
  · by_cases hret : dataRet = 0 ∧ indexRet = 0
    · -- the counters are computed from the map
      rw [if_pos hret] at hmeta
      have hcard : (s.delBitmap.rows.filter (· < docid)).card ≤ docid := by
        calc (s.delBitmap.rows.filter (· < docid)).card
            ≤ (Finset.range docid).card := Finset.card_le_card fun i hi =>
              Finset.mem_range.mpr (Finset.mem_filter.mp hi).2
          _ = docid := Finset.card_range docid
      refine ⟨?_, ?_, ?_⟩ <;> rw [hmeta]
      · rw [hrows]
        exact fun i hi => (Finset.mem_filter.mp hi).2
      · rw [hlim]
        exact Nat.le_of_lt hlt
      · rw [hrows]
        show _ + (docid - _) = docid
        omega
    · rw [if_neg hret] at hmeta
      have hall : ∀ i ∈ s.delBitmap.rows, i < docid := by
        rcases hclean with hc | hover | hret' | hall
        · rw [hcomp] at hc
          cases hc
        · omega
        · exact absurd hret' hret
        · exact hall
      rw [Finset.filter_true_of_mem hall] at hrows
      exact ⟨by rw [hrows, hmeta]; exact h.rows_lt, by rw [hmeta, hlim]; exact h.rowCount_le,
        by rw [hrows, hmeta]; exact h.count⟩

abbrev Segment.CountersMatch (s : Segment) : Prop :=
  bitmarkCount s.delBitmap = s.recordNum ∧ s.recordNum = s.liveRows.card

theorem Segment.Counted.countersMatch (h : s.Counted) : s.CountersMatch :=
  ⟨by rw [bitmarkCount_eq, h.recordNum_eq], h.liveRows_card.symm⟩

/-- Only clean ones keep them. -/
theorem Segment.Counted.recoverClean (h : s.Counted) {docid : Nat} {dataRet indexRet : Int}
    (hmatch : (s.recover docid dataRet indexRet).1.CountersMatch) :
    s.RecoverClean docid dataRet indexRet := by
  rcases s.recover_cases docid dataRet indexRet with
    ⟨hcomp | hover, -, -⟩ | ⟨-, hlt, hrows, hmeta⟩
  · exact .inl hcomp
  · exact .inr (.inl hover)
  · by_cases hret : dataRet = 0 ∧ indexRet = 0
    · exact .inr (.inr (.inl hret))
    · -- the counters are the old ones, so the map has lost no row
      rw [if_neg hret] at hmeta
      have hcard := hmatch.1
      rw [bitmarkCount_eq, hrows, Segment.recordNum, hmeta, ← Segment.recordNum, h.recordNum_eq]
        at hcard
      have hsame := Finset.eq_of_subset_of_card_le (Finset.filter_subset (· < docid) _)
        (Nat.le_of_eq hcard.symm)
      refine .inr (.inr (.inr fun i hi => ?_))
      rw [← hsame] at hi
      exact (Finset.mem_filter.mp hi).2

end Invariant

end Mile.DocDb
