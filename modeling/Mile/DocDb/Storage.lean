/-
  Mile.DocDb.Storage
  ──────────────────
  **THE COLUMN STORE OF A FILTER INDEX** (`storage/docdb/storage.c`).

  One cell of `value_size` bytes a row and a bit map of the rows that have a value.  An insert
  copies as many bytes as the value has, an update a whole cell.
-/
import Mile.DocDb.Bitmark

namespace Mile.DocDb

open Lib Common List Function

/-! ## §1. The store. -/

/-- `get_unit_size(HI_TYPE_LONGLONG)`, the `value_size` of the store. -/
def valueSize : Nat := FieldType.unitSize .longlong

/-- A number of rows the store can be opened with: `STORAGE_MMAP_SIZE` is a
32-bit product, and an empty mapping fails. -/
structure RowLimit where
  rows : Nat
  rows_pos : 0 < rows
  mmap_lt : valueSize * rows < 2 ^ 32

/-- `struct storage_manager`: a cell of `value_size` bytes for each row, and
the rows that have a value. -/
structure Storage where
  limit : RowLimit
  mem : Nat → Bytes
  nullBitmark : Bitmark
  mem_length : ∀ i, (mem i).length = valueSize
  null_rowLimit : nullBitmark.rowLimit = limit.rows

/-- The `row_limit` field. -/
def Storage.rowLimit (st : Storage) : Nat := st.limit.rows

/-- `storage_init` on new files. -/
def storageInit (limit : RowLimit) : Storage where
  limit := limit
  mem := fun _ => replicate valueSize 0
  nullBitmark := bitmarkInit limit.rows noFile
  mem_length := fun _ => length_replicate
  null_rowLimit := rfl

def Storage.put (st : Storage) (docid : Nat) (cell : Bytes) (h : cell.length = valueSize) :
    Storage where
  limit := st.limit
  mem := update st.mem docid cell
  nullBitmark := (bitmarkSet st.nullBitmark docid).1
  mem_length := by
    intro i
    by_cases hi : i = docid
    · rw [hi, update_self, h]
    · rw [update_of_ne hi, st.mem_length]
  null_rowLimit := by rw [bitmarkSet_rowLimit, st.null_rowLimit]

/-- `storage_insert` of a value that is not wider than a cell: only its own
bytes are copied, the rest of the cell stays. -/
def storageInsert (st : Storage) (data : Bytes) (hlen : data.length ≤ valueSize) (docid : Nat) :
    Storage :=
  if data.length = 0 then st
  else
    st.put docid (data ++ (st.mem docid).drop data.length) (by
      rw [length_append, length_drop, st.mem_length]
      omega)

/-- `storage_query`: the empty byte string stands for a result of length 0. -/
def storageQuery (st : Storage) (docid : Nat) : Bytes :=
  if bitmarkQuery st.nullBitmark docid = 1 then [] else st.mem docid

/-- The `value_size` bytes at the address of a value; `behind` is what stands
in memory after it. -/
def cellAt (data : Bytes) (behind : Nat → UInt8) : Bytes :=
  (List.range valueSize).map fun j => data.getD j (behind j)

/-- `storage_update`, which also returns the old value. -/
def storageUpdate (st : Storage) (data : Bytes) (behind : Nat → UInt8) (docid : Nat) :
    Storage × Bytes :=
  let oldData := storageQuery st docid
  if data.length = 0 then
    ({ st with
        nullBitmark := (bitmarkClear st.nullBitmark docid).1
        null_rowLimit := by rw [bitmarkClear_rowLimit, st.null_rowLimit] }, oldData)
  else
    (st.put docid (cellAt data behind) (by simp [cellAt]), oldData)

/-! ## §2. Rows. -/

def Storage.row (st : Storage) (i : Nat) : Option Nat :=
  if st.nullBitmark.bit i then some (leNat (st.mem i)) else none

def Storage.rows (st : Storage) : List (Option Nat) := (List.range st.rowLimit).map st.row

section Rows

variable {st : Storage} {i : Nat}

theorem Storage.row_eq_none : st.row i = none ↔ st.nullBitmark.bit i = false := by
  unfold Storage.row
  split_ifs with h <;> simp [h]

theorem Storage.row_eq_some {v : Nat} :
    st.row i = some v ↔ st.nullBitmark.bit i = true ∧ leNat (st.mem i) = v := by
  unfold Storage.row
  split_ifs with h <;> simp [h]

theorem Storage.query_eq_one_iff (hi : i < st.rowLimit) :
    bitmarkQuery st.nullBitmark i = 1 ↔ st.row i = none := by
  rw [bitmarkQuery_eq _ (by rw [st.null_rowLimit]; exact hi), Storage.row_eq_none]
  cases st.nullBitmark.bit i <;> simp

theorem storageQuery_eq (hi : i < st.rowLimit) :
    storageQuery st i = if st.row i = none then [] else st.mem i := by
  unfold storageQuery
  simp only [Storage.query_eq_one_iff hi]

theorem storageQuery_ne_nil (hi : i < st.rowLimit) : storageQuery st i ≠ [] ↔ st.row i ≠ none := by
  rw [storageQuery_eq hi]
  have hlen := st.mem_length i
  split_ifs with h
  · simp [h]
  · refine ⟨fun _ => h, fun _ hnil => ?_⟩
    rw [hnil] at hlen
    exact absurd hlen (by decide)

end Rows

@[simp] theorem storageInsert_rowLimit (st : Storage) (data : Bytes)
    (hlen : data.length ≤ valueSize) (docid : Nat) :
    (storageInsert st data hlen docid).rowLimit = st.rowLimit := by
  unfold storageInsert
  split_ifs <;> rfl

@[simp] theorem storageUpdate_rowLimit (st : Storage) (data : Bytes) (behind : Nat → UInt8)
    (docid : Nat) : (storageUpdate st data behind docid).1.rowLimit = st.rowLimit := by
  unfold storageUpdate
  split_ifs <;> rfl

end Mile.DocDb
