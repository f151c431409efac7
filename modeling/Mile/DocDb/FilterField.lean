/-
  Mile.DocDb.FilterField
  ──────────────────────
  **FILTER INDEXES** (`storage/docdb/index_field.c`, the filter branches).

  A filter index holds the column store until `index_field_switch` replaces it by the compressed
  index.  `max_len`, the width of the longest value inserted, is the width of the values there.
-/
import Mile.Common.Hash
import Mile.DocDb.FilterCompress

namespace Mile.DocDb

open Lib Common List

/-! ## §1. Inserting and updating. -/

/-- The filter part of `struct index_field_manager` before the switch. -/
structure PlainField where
  maxLen : Nat
  filterIndex : Storage

def hashCell (data : LowData) : Bytes := leBytes valueSize (getHashValue data).toNat

/-- The filter branch of `index_field_insert`. -/
def PlainField.insert (f : PlainField) (data : LowData) (docid : Nat) : PlainField × ResultCode :=
  if data.type = .string then
    ({ maxLen := if f.maxLen < valueSize then valueSize else f.maxLen
       filterIndex := storageInsert f.filterIndex (hashCell data) (leBytes_length ..).le docid },
      .success)
  else if h : valueSize < data.data.length then (f, .errorInsertFailded)
  else
    ({ maxLen := if f.maxLen < data.len then data.len else f.maxLen
       filterIndex := storageInsert f.filterIndex data.data (by omega) docid },
      .success)

/-- The filter branch of `index_field_update`, which also returns the old
value; `behind` is what stands in memory after the new one. -/
def PlainField.update (f : PlainField) (data : LowData) (behind : Nat → UInt8) (docid : Nat) :
    PlainField × Bytes :=
  let r := storageUpdate f.filterIndex (if data.type = .string then hashCell data else data.data)
    behind docid
  ({ f with filterIndex := r.1 }, r.2)

/-! ## §2. The index field. -/

/-- `struct index_field_manager` of a filter index, by its flag.  A field that
is not switched has the `filter_compress` pointer of its last compression. -/
inductive FilterField where
  | plain (f : PlainField) (filterCompress : LoadResult) (files : FilterFiles)
  | compressed (maxLen : Nat) (filterCompress : FilterCompress) (files : FilterFiles)

/-- `index_field_init` in an empty work space. -/
def filterFieldInit (limit : RowLimit) : FilterField :=
  .plain ⟨0, storageInit limit⟩ .null noFilterFiles

/-- `index_field_insert`. -/
def filterFieldInsert (field : FilterField) (data : LowData) (docid : Nat) :
    FilterField × ResultCode :=
  match field with
  | .compressed .. => (field, .errorIndexFieldCompressed)
  | .plain f fc files => (.plain (f.insert data docid).1 fc files, (f.insert data docid).2)

/-- `index_field_update`; a compressed field sets no old value. -/
def filterFieldUpdate (field : FilterField) (data : LowData) (behind : Nat → UInt8) (docid : Nat) :
    FilterField × Option Bytes × ResultCode :=
  match field with
  | .compressed .. => (field, none, .errorIndexFieldCompressed)
  | .plain f fc files =>
    (.plain (f.update data behind docid).1 fc files, some (f.update data behind docid).2, .success)

/-- `index_field_value_query`. -/
def indexFieldValueQuery (field : FilterField) (docid : Nat) : Bytes :=
  match field with
  | .plain f _ _ => storageQuery f.filterIndex docid
  | .compressed _ fc _ => filterCompressQuery fc docid

/-- `index_field_compress`.  The mapped memory of a loaded index is the
contents of its files. -/
def indexFieldCompress (field : FilterField) : FilterField × ResultCode :=
  match field with
  | .compressed .. => (field, .errorNotNeedCompress)
  | .plain f _ files =>
    match filterCompressLoad f.filterIndex f.maxLen files with
    | .null => (.plain f .null files, .errorCommpressFail)
    | .notNeeded =>
      (.plain f .notNeeded { noFilterFiles with
        bitmapIndex := files.bitmapIndex
        nullMark := files.nullMark }, .errorNotNeedCompress)
    | .loaded fc => (.plain f (.loaded fc) (filterCompressRelease fc files), .success)

/-- `index_field_switch`. -/
def indexFieldSwitch (field : FilterField) : FilterField × ResultCode :=
  match field with
  | .compressed .. => (field, .errorFieldNotWork)
  | .plain _ .null _ => (field, .errorCommpressFail)
  | .plain _ .notNeeded _ => (field, .errorNotNeedCompress)
  | .plain f (.loaded fc) files => (.compressed f.maxLen fc files, .success)

/-- `index_field_release` followed by `index_field_init`. -/
def indexFieldReopen (field : FilterField) : FilterField :=
  match field with
  | .plain f _ files => .plain f .null files
  | .compressed maxLen fc files =>
    .compressed maxLen (filterCompressInit (filterCompressRelease fc files))
      (filterCompressRelease fc files)

/-- One call; rows are below the row limit. -/
inductive FilterOp (limit : RowLimit) where
  | insert (docid : Fin limit.rows) (data : LowData)
  | update (docid : Fin limit.rows) (data : LowData) (behind : Nat → UInt8)

def filterFieldStep {limit : RowLimit} (field : FilterField) : FilterOp limit → FilterField
  | .insert docid data => (filterFieldInsert field data docid).1
  | .update docid data behind => (filterFieldUpdate field data behind docid).1

def filterRun (limit : RowLimit) (ops : List (FilterOp limit)) : FilterField :=
  ops.foldl filterFieldStep (filterFieldInit limit)

/-! ## §3. What compression has to keep. -/

/-- Two answers are the same value of a type of `w` bytes: both NULL or none,
and the same bytes, zero-extended or cut. -/
abbrev SameValue (w : Nat) (a b : Bytes) : Prop :=
  (a = [] ↔ b = []) ∧ leNat a % 256 ^ w = leNat b % 256 ^ w

def switched (field : FilterField) : FilterField :=
  (indexFieldSwitch (indexFieldCompress field).1).1

/-- Every row reads the same before compression, after it, and after the field
was opened again. -/
abbrev RowsKept (w rows : Nat) (field : FilterField) : Prop :=
  ∀ docid < rows,
    SameValue w (indexFieldValueQuery field docid) (indexFieldValueQuery (switched field) docid) ∧
    SameValue w (indexFieldValueQuery field docid)
      (indexFieldValueQuery (indexFieldReopen (switched field)) docid)

def PlainField.step {limit : RowLimit} (f : PlainField) : FilterOp limit → PlainField
  | .insert docid data => (f.insert data docid).1
  | .update docid data behind => (f.update data behind docid).1

def plainRun (limit : RowLimit) (ops : List (FilterOp limit)) : PlainField :=
  ops.foldl PlainField.step ⟨0, storageInit limit⟩

/-- `max_len` bytes are enough for the values of a type of `w` bytes: no value
is cut within its type, and none becomes empty. -/
def PlainField.MaxLenCovers (w : Nat) (f : PlainField) : Prop :=
  ∀ docid < f.filterIndex.rowLimit, ∀ v, f.filterIndex.row docid = some v →
    f.maxLen ≠ 0 ∧ v % 256 ^ f.maxLen % 256 ^ w = v % 256 ^ w

def PlainField.TwoValuesNoNull (f : PlainField) : Prop :=
  f.filterIndex.distinctValues.length = 2 ∧
    ∀ docid < f.filterIndex.rowLimit, f.filterIndex.row docid ≠ none

/-! ## §4. Runs. -/

section Runs

variable {limit : RowLimit}

theorem filterRun_eq (ops : List (FilterOp limit)) :
    filterRun limit ops = .plain (plainRun limit ops) .null noFilterFiles := by
  induction ops using reverseRecOn with
  | nil => rfl
  | append_singleton ops op ih =>
    unfold filterRun plainRun at ih ⊢
    rw [foldl_concat, foldl_concat, ih]
    cases op <;> rfl

theorem PlainField.step_rowLimit (f : PlainField) (op : FilterOp limit) :
    (f.step op).filterIndex.rowLimit = f.filterIndex.rowLimit := by
  cases op with
  | insert docid data =>
    simp only [PlainField.step, PlainField.insert]
    by_cases hstr : data.type = .string
    · rw [if_pos hstr]
      exact storageInsert_rowLimit ..
    · rw [if_neg hstr]
      split
      · rfl
      · exact storageInsert_rowLimit f.filterIndex data.data (by omega) docid
  | update docid data behind => exact storageUpdate_rowLimit ..

theorem plainRun_rowLimit (ops : List (FilterOp limit)) :
    (plainRun limit ops).filterIndex.rowLimit = limit.rows := by
  induction ops using reverseRecOn with
  | nil => rfl
  | append_singleton ops op ih =>
    unfold plainRun at ih ⊢
    rw [foldl_concat, PlainField.step_rowLimit, ih]

end Runs

/-! ## §5. Compression keeps the rows. -/

section Kept

variable (st : Storage)

theorem Storage.row_lt {i v : Nat} (h : st.row i = some v) : v < 256 ^ valueSize := by
  obtain ⟨-, rfl⟩ := Storage.row_eq_some.mp h
  rw [← st.mem_length i]
  exact leNat_lt _

/-- When a cell of `m` bytes keeps the value. -/
theorem sameValue_cellOf {i : Nat} (hi : i < st.rowLimit) (w m : Nat) :
    SameValue w (storageQuery st i) (cellOf m (st.row i)) ↔
      ∀ v, st.row i = some v → m ≠ 0 ∧ v % 256 ^ m % 256 ^ w = v % 256 ^ w := by
  have hnil := storageQuery_ne_nil hi
  cases hrow : st.row i with
  | none =>
    have hq : storageQuery st i = [] := by rw [storageQuery_eq hi, if_pos hrow]
    rw [hq]
    exact ⟨fun _ v hv => (nomatch hv), fun _ => ⟨Iff.rfl, rfl⟩⟩
  | some v =>
    rw [hrow] at hnil
    have hne := hnil.mpr (Option.some_ne_none v)
    have hval : leNat (storageQuery st i) = v := by
      rw [storageQuery_eq hi, hrow, if_neg (Option.some_ne_none v)]
      exact (Storage.row_eq_some.mp hrow).2
    have hcell : leBytes m v = [] ↔ m = 0 := by
      rw [← length_eq_zero_iff, leBytes_length]
    unfold SameValue cellOf
    rw [hval, leNat_leBytes, hcell]
    constructor
    · rintro ⟨hnull, hsame⟩ u hu
      cases hu
      exact ⟨fun hm => hne (hnull.mpr hm), hsame.symm⟩
    · intro h
      obtain ⟨hm, hsame⟩ := h v rfl
      exact ⟨iff_of_false hne hm, hsame.symm⟩

theorem filterCompressQuery_noNullMark {fc : FilterCompress} (htype : fc.indexType = 2) {n i : Nat}
    (hi : i < n) :
    filterCompressQuery { fc with bitmark := some (bitmarkInit n noFile) } i = [] := by
  have hmarked : markedNull (some (bitmarkInit n noFile)) i = true := by
    simp only [markedNull, decide_eq_true_eq]
    rw [bitmarkQuery_eq _ hi]
    simp
  refine (filterCompressQuery_bitmap i ?_).trans (if_pos hmarked)
  exact htype

theorem filterCompressRelease_idem (fc : FilterCompress) (files : FilterFiles) :
    filterCompressRelease fc (filterCompressRelease fc files) = filterCompressRelease fc files := by
  unfold filterCompressRelease
  cases fc.bitmark <;> split_ifs <;> rfl

end Kept

/-- When compression keeps all rows of a plain field. -/
theorem rowsKept_plain (f : PlainField) (w : Nat) :
    RowsKept w f.filterIndex.rowLimit (.plain f .null noFilterFiles) ↔
      f.MaxLenCovers w ∧ ¬ f.TwoValuesNoNull := by
  have hrows : 0 < f.filterIndex.rowLimit := f.filterIndex.limit.rows_pos
  have hcover : f.MaxLenCovers w ↔ ∀ docid < f.filterIndex.rowLimit,
      SameValue w (storageQuery f.filterIndex docid)
        (cellOf f.maxLen (f.filterIndex.row docid)) := by
    unfold PlainField.MaxLenCovers
    exact forall₂_congr fun docid hd => (sameValue_cellOf f.filterIndex hd w f.maxLen).symm
  unfold RowsKept switched indexFieldCompress
  rcases filterCompressLoad_spec f.filterIndex f.maxLen noFilterFiles rfl with
    ⟨hload, hwide, htwo⟩ | ⟨fc, hload, hans, htype, hre⟩
  · -- the field is left as it is; a width of whole cells covers everything
    simp only [hload, indexFieldSwitch, indexFieldReopen, indexFieldValueQuery]
    refine iff_of_true (fun docid _ => ⟨⟨Iff.rfl, rfl⟩, ⟨Iff.rfl, rfl⟩⟩) ⟨?_, fun h => htwo h.1⟩
    intro docid hd v hv
    have hlt : v < 256 ^ f.maxLen :=
      Nat.lt_of_lt_of_le (f.filterIndex.row_lt hv) (Nat.pow_le_pow_right (by decide) hwide)
    refine ⟨?_, by rw [Nat.mod_eq_of_lt hlt]⟩
    rw [show valueSize = 8 from rfl] at hwide
    omega
  · simp only [hload, indexFieldSwitch, indexFieldReopen, indexFieldValueQuery,
      filterCompressRelease_idem, hre]
    rw [hcover]
    by_cases hbad : f.filterIndex.distinctValues.length = 2 ∧
        f.filterIndex.nullCount f.filterIndex.rowLimit = 0
    · -- the first row has a value, and reads NULL from the reopened index
      have hvalues := f.filterIndex.nullCount_eq_zero.mp hbad.2
      rw [if_pos hbad]
      refine iff_of_false (fun hkept => ?_) (fun h => h.2 ⟨hbad.1, hvalues⟩)
      have hnull := (hkept 0 hrows).2.1.mpr
        (filterCompressQuery_noNullMark (htype hbad.1) hrows)
      exact (storageQuery_ne_nil hrows).mpr (hvalues 0 hrows) hnull
    · rw [if_neg hbad, Storage.nullCount_eq_zero] at *
      refine ⟨fun hkept => ⟨fun docid hd => ?_, hbad⟩, fun h docid hd => ?_⟩
      · rw [← hans docid hd]
        exact (hkept docid hd).1
      · rw [hans docid hd]
        exact ⟨h.1 docid hd, h.1 docid hd⟩

def oneByte (x : UInt8) : LowData := ⟨[], .tiny, [x]⟩

end Mile.DocDb
