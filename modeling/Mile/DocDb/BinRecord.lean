/-
  Mile.DocDb.BinRecord
  ────────────────────
  **THE OPERATIONS IN THE BINLOG** (`storage/docdb/db.c`, `common_util.c`).

  An operation is packed into a binlog record by an encoder (`db_insert_to_binrecord`, …) and
  unpacked by `db_execute_binrecord`.  Names are written behind a one-byte length:

      insert      |t| t  n  (|f| f type len data)*n
      update      |t| t  |f| f type len data
      index       type  |t| t  |f| f  alg
      dindex      |t| t  |f| f  alg
      load        |t| t  |d| d
      delete, unload, compress    |t| t
-/
import Mile.Lib.Cursor
import Mile.Binlog.Record

namespace Mile.DocDb

open Lib Common Binlog List

/-! ## §1. Memory and names. -/

/-- `mem_pool_malloc` on a pool of the given size; the block as the `memset`
behind every call leaves it. -/
def memPoolMalloc (pool size : Nat) : Option Bytes :=
  if size > pool then none else some (replicate size 0)

/-- `sizeof(struct low_data_struct)`. -/
def sizeofLowData : Nat := 32

/-- `sizeof(struct row_data)`. -/
def sizeofRowData : Nat := 16

def cString (b : Bytes) : Bytes := b.takeWhile (· ≠ 0)

/-- `(uint8_t)strlen(name)`. -/
def nameLen (name : Bytes) : UInt8 := UInt8.ofNat name.length

/-- `create_binlog_record(data_len)`.  The parameter is an `int`: a negative
one asks the pool for nearly 2^64 bytes, or (from -16 on) for less than a
header. -/
def createBinlogRecord (pool dataLen : Nat) : Option BinlogRecord :=
  let n := dataLen % 2 ^ 32
  if h : n < 2 ^ 31 then
    (memPoolMalloc pool (headerSize + n)).map fun _ =>
      { time := 0, sid := 0, docid := 0, flag := 0, opCode := 0, data := replicate n 0,
        len_lt := by rw [length_replicate]; unfold headerSize; omega }
  else none

def BinlogRecord.fill (r : BinlogRecord) (pieces : List Bytes) : BinlogRecord :=
  { r with data := copyAll r.data 0 pieces, len_lt := by rw [copyAll_length]; exact r.len_lt }

/-! ## §2. The encoders. -/

/-- One operation with its arguments. -/
inductive BinOp where
  | insert (table : Bytes) (sid : UInt16) (docid : UInt32) (row : RowData)
  | update (table : Bytes) (sid : UInt16) (docid : UInt32) (newData : LowData)
  | delete (table : Bytes) (sid : UInt16) (docid : UInt32)
  | index (table field : Bytes) (indexType : IndexKeyAlg) (dataType : FieldType)
  | dindex (table field : Bytes) (indexType : IndexKeyAlg)
  | load (table : Bytes) (sid : UInt16) (segmentDir : Bytes)
  | unload (table : Bytes) (sid : UInt16)
  | compress (table : Bytes)
  deriving DecidableEq

def namePieces (name : Bytes) : List Bytes := [[nameLen name], name.take (nameLen name).toNat]

def valuePieces (d : LowData) : List Bytes := [[d.type.toByte], leBytes 4 d.len, d.data]

/-- What one column adds to the length `rowdata_to_lowdata` computes. -/
def fieldSize (d : LowData) : Nat := 1 + 1 + d.fieldName.length + 4 + d.len

/-- `rowdata_to_lowdata`: the packed row; its length is a `uint32_t`. -/
def rowdataToLowdata (pool : Nat) (row : RowData) : Option Bytes := do
  let _ ← memPoolMalloc pool sizeofLowData
  let len := (2 + (row.datas.map fieldSize).sum) % 2 ^ 32
  let buf ← memPoolMalloc pool len
  return copyAll buf 0
    (leBytes 2 row.fieldCount ::
      (row.datas.map fun d => namePieces d.fieldName ++ valuePieces d).flatten)

/-- `db_insert_to_binrecord`. -/
def dbInsertToBinrecord (pool : Nat) (table : Bytes) (sid : UInt16) (docid : UInt32)
    (row : RowData) : Option BinlogRecord := do
  let buf ← rowdataToLowdata pool row
  let r ← createBinlogRecord pool (buf.length + table.length + 1)
  let r := { r with docid := docid, sid := sid, opCode := OperationCode.insert.toByte }
  return BinlogRecord.fill r (namePieces table ++ [buf])

/-- The encoders that pack into a buffer first: `data_len` is a `uint32_t`. -/
def packedRecord (pool dataLen : Nat) (pieces : List Bytes) : Option BinlogRecord := do
  let buf ← memPoolMalloc pool (dataLen % 2 ^ 32)
  let r ← createBinlogRecord pool (dataLen % 2 ^ 32)
  return BinlogRecord.fill r [copyAll buf 0 pieces]

/-- `db_update_to_binrecord`. -/
def dbUpdateToBinrecord (pool : Nat) (table : Bytes) (sid : UInt16) (docid : UInt32)
    (newData : LowData) : Option BinlogRecord := do
  let fldLen := nameLen newData.fieldName
  let tblLen := nameLen table
  let r ← packedRecord pool (3 + fldLen.toNat + tblLen.toNat + newData.len + 4)
    (namePieces table ++ namePieces newData.fieldName ++ valuePieces newData)
  return { r with docid := docid, sid := sid, opCode := OperationCode.update.toByte }

/-- `db_index_to_binrecord`. -/
def dbIndexToBinrecord (pool : Nat) (table field : Bytes) (indexType : IndexKeyAlg)
    (dataType : FieldType) : Option BinlogRecord := do
  let r ← packedRecord pool (4 + (nameLen field).toNat + (nameLen table).toNat)
    ([[dataType.toByte]] ++ namePieces table ++ namePieces field ++ [[indexType.toByte]])
  return { r with opCode := OperationCode.index.toByte }

/-- `db_dindex_to_binrecord`. -/
def dbDindexToBinrecord (pool : Nat) (table field : Bytes) (indexType : IndexKeyAlg) :
    Option BinlogRecord := do
  let r ← packedRecord pool (3 + (nameLen field).toNat + (nameLen table).toNat)
    (namePieces table ++ namePieces field ++ [[indexType.toByte]])
  return { r with opCode := OperationCode.dindex.toByte }

/-- `db_delete_to_binrecord`: `len+1` is an `int`. -/
def dbDeleteToBinrecord (pool : Nat) (table : Bytes) (sid : UInt16) (docid : UInt32) :
    Option BinlogRecord := do
  let r ← createBinlogRecord pool ((nameLen table).toNat + 1)
  let r := { r with docid := docid, sid := sid, opCode := OperationCode.delete.toByte }
  return BinlogRecord.fill r (namePieces table)

/-- `db_load_to_binrecord`: the data length is kept in a `uint8_t`. -/
def dbLoadToBinrecord (pool : Nat) (table : Bytes) (sid : UInt16) (segmentDir : Bytes) :
    Option BinlogRecord := do
  let len : UInt8 := nameLen table + nameLen segmentDir + 2
  let r ← createBinlogRecord pool len.toNat
  let r := { r with sid := sid, opCode := OperationCode.load.toByte }
  return BinlogRecord.fill r (namePieces table ++ namePieces segmentDir)

/-- `db_unload_to_binrecord`: the data length is kept in a `uint8_t`. -/
def dbUnloadToBinrecord (pool : Nat) (table : Bytes) (sid : UInt16) : Option BinlogRecord := do
  let len : UInt8 := nameLen table + 1
  let r ← createBinlogRecord pool len.toNat
  let r := { r with sid := sid, opCode := OperationCode.unload.toByte }
  return BinlogRecord.fill r (namePieces table)

/-- `db_compress_to_binrecord`: the data length is kept in a `uint8_t`. -/
def dbCompressToBinrecord (pool : Nat) (table : Bytes) : Option BinlogRecord := do
  let len : UInt8 := nameLen table + 1
  let r ← createBinlogRecord pool len.toNat
  let r := { r with opCode := OperationCode.compress.toByte }
  return BinlogRecord.fill r (namePieces table)

def BinOp.toBinrecord (pool : Nat) : BinOp → Option BinlogRecord
  | .insert table sid docid row => dbInsertToBinrecord pool table sid docid row
  | .update table sid docid newData => dbUpdateToBinrecord pool table sid docid newData
  | .delete table sid docid => dbDeleteToBinrecord pool table sid docid
  | .index table field indexType dataType =>
    dbIndexToBinrecord pool table field indexType dataType
  | .dindex table field indexType => dbDindexToBinrecord pool table field indexType
  | .load table sid segmentDir => dbLoadToBinrecord pool table sid segmentDir
  | .unload table sid => dbUnloadToBinrecord pool table sid
  | .compress table => dbCompressToBinrecord pool table

/-! ## §3. The decoders. -/

section Decoders

variable (pool : Nat)

/-- A counted name: the length, a zeroed buffer one byte longer, the bytes
copied into it. -/
def readName : Cursor Bytes := do
  let len ← getByte
  let _ ← StateT.lift (memPoolMalloc pool (len.toNat + 1))
  let raw ← getBytes len.toNat
  return cString raw

/-- `(enum field_types)` of the next byte. -/
def readFieldType : Cursor FieldType := do
  let b ← getByte
  StateT.lift (FieldType.ofByte? b)

/-- `(enum index_key_alg)` of the next byte. -/
def readIndexType : Cursor IndexKeyAlg := do
  let b ← getByte
  StateT.lift (IndexKeyAlg.ofByte? b)

/-- One column of `lowdata_to_rowdata`. -/
def readField : Cursor LowData := do
  let fieldName ← readName pool
  let type ← readFieldType
  let len ← getWord 4
  let data ← getBytes len
  return { fieldName := fieldName, type := type, data := data }

/-- `lowdata_to_rowdata`. -/
def lowdataToRowdata : Cursor RowData := do
  let _ ← StateT.lift (memPoolMalloc pool sizeofRowData)
  let count ← getWord 2
  let _ ← StateT.lift (memPoolMalloc pool (count * sizeofLowData))
  let datas ← getTimes (readField pool) count
  StateT.lift (if h : datas.length < 2 ^ 16 then some ⟨datas, h⟩ else none)

/-- `db_binrecord_to_insert`. -/
def dbBinrecordToInsert : Cursor (Bytes × RowData) := do
  let table ← readName pool
  let row ← lowdataToRowdata pool
  return (table, row)

/-- `db_binrecord_to_update`. -/
def dbBinrecordToUpdate : Cursor (Bytes × LowData) := do
  let table ← readName pool
  let fieldName ← readName pool
  let type ← readFieldType
  let _ ← StateT.lift (memPoolMalloc pool sizeofLowData)
  let len ← getWord 4
  let data ← getBytes len
  return (table, { fieldName := fieldName, type := type, data := data })

/-- `db_binrecord_to_index`. -/
def dbBinrecordToIndex : Cursor (FieldType × Bytes × Bytes × IndexKeyAlg) := do
  let dataType ← readFieldType
  let table ← readName pool
  let field ← readName pool
  let indexType ← readIndexType
  return (dataType, table, field, indexType)

/-- `db_binrecord_to_dindex`. -/
def dbBinrecordToDindex : Cursor (Bytes × Bytes × IndexKeyAlg) := do
  let table ← readName pool
  let field ← readName pool
  let indexType ← readIndexType
  return (table, field, indexType)

/-- `db_binrecord_to_load`: the buffer for the directory is allocated and
cleared, but nothing is copied into it. -/
def dbBinrecordToLoad : Cursor (Bytes × Bytes) := do
  let table ← readName pool
  let len ← getByte
  let segmentDir ← StateT.lift (memPoolMalloc pool (len.toNat + 1))
  return (table, cString segmentDir)

/-- `db_binrecord_to_unload`. -/
def dbBinrecordToUnload : Cursor Bytes := readName pool

/-- `db_binrecord_to_compress`. -/
def dbBinrecordToCompress : Cursor Bytes := readName pool

/-- The call `db_execute_binrecord` makes for a record; other codes are
logged and skipped. -/
def dbExecuteBinrecord (r : BinlogRecord) : Option BinOp :=
  match OperationCode.ofByte? r.opCode with
  | some .delete => ((readName pool).on r.data).map (.delete · r.sid r.docid)
  | some .insert =>
    ((dbBinrecordToInsert pool).on r.data).map fun a => .insert a.1 r.sid r.docid a.2
  | some .update =>
    ((dbBinrecordToUpdate pool).on r.data).map fun a => .update a.1 r.sid r.docid a.2
  | some .index =>
    ((dbBinrecordToIndex pool).on r.data).map fun a => .index a.2.1 a.2.2.1 a.2.2.2 a.1
  | some .dindex =>
    ((dbBinrecordToDindex pool).on r.data).map fun a => .dindex a.1 a.2.1 a.2.2
  | some .compress => ((dbBinrecordToCompress pool).on r.data).map .compress
  | some .load => ((dbBinrecordToLoad pool).on r.data).map fun a => .load a.1 r.sid a.2
  | some .unload => ((dbBinrecordToUnload pool).on r.data).map (.unload · r.sid)
  | _ => none

end Decoders

/-! ## §4. The layout. -/

def IsName (n : Bytes) : Prop := n ≠ [] ∧ n.length ≤ 255 ∧ 0 ∉ n

instance (n : Bytes) : Decidable (IsName n) := by unfold IsName; infer_instance

def counted (name : Bytes) : Bytes := nameLen name :: name

def valueImage (d : LowData) : Bytes := d.type.toByte :: (leBytes 4 d.len ++ d.data)

def fieldImage (d : LowData) : Bytes := counted d.fieldName ++ valueImage d

def rowImage (row : RowData) : Bytes :=
  leBytes 2 row.fieldCount ++ (row.datas.map fieldImage).flatten

def BinOp.payload : BinOp → Bytes
  | .insert table _ _ row => counted table ++ rowImage row
  | .update table _ _ newData => counted table ++ fieldImage newData
  | .delete table _ _ => counted table
  | .index table field indexType dataType =>
    dataType.toByte :: (counted table ++ (counted field ++ [indexType.toByte]))
  | .dindex table field indexType => counted table ++ (counted field ++ [indexType.toByte])
  | .load table _ segmentDir => counted table ++ counted segmentDir
  | .unload table _ => counted table
  | .compress table => counted table

def BinOp.code : BinOp → OperationCode
  | .insert .. => .insert
  | .update .. => .update
  | .delete .. => .delete
  | .index .. => .index
  | .dindex .. => .dindex
  | .load .. => .load
  | .unload .. => .unload
  | .compress .. => .compress

/-- The `sid` of an operation's record; 0 where the operation has none. -/
def BinOp.sid : BinOp → UInt16
  | .insert _ sid _ _ | .update _ sid _ _ | .delete _ sid _ | .load _ sid _ | .unload _ sid => sid
  | _ => 0

/-- The `docid` of an operation's record; 0 where the operation has none. -/
def BinOp.docid : BinOp → UInt32
  | .insert _ _ docid _ | .update _ _ docid _ | .delete _ _ docid => docid
  | _ => 0

/-- Names are names, and lengths of values are `uint32_t`. -/
def BinOp.Valid : BinOp → Prop
  | .insert table _ _ row =>
    IsName table ∧ ∀ d ∈ row.datas, IsName d.fieldName ∧ d.len < 2 ^ 32
  | .update table _ _ newData =>
    IsName table ∧ IsName newData.fieldName ∧ newData.len < 2 ^ 32
  | .index table field _ _ | .dindex table field _ | .load table _ field =>
    IsName table ∧ IsName field
  | .delete table _ _ | .unload table _ | .compress table => IsName table

def BinOp.fieldCount : BinOp → Nat
  | .insert _ _ _ row => row.fieldCount
  | _ => 0

/-- The pool can serve every request of the encoder and of the decoder: a
name's buffer, the record, the array of the row's values. -/
abbrev BinOp.Fits (pool : Nat) (op : BinOp) : Prop :=
  256 ≤ pool ∧ headerSize + op.payload.length ≤ pool ∧ op.fieldCount * sizeofLowData ≤ pool

/-- The operations whose record holds all of their arguments and whose
decoder reads them. -/
def BinOp.Carried : BinOp → Prop
  | .load .. => False
  | .unload table _ | .compress table => table.length < 255
  | op => op.payload.length < 2 ^ 31

instance (op : BinOp) : Decidable op.Valid := by
  cases op <;> (dsimp only [BinOp.Valid]; infer_instance)

/-! ### Sizes. -/

variable {n : Bytes}

theorem nameLen_toNat (h : IsName n) : (nameLen n).toNat = n.length := by
  unfold nameLen
  rw [UInt8.toNat_ofNat']
  have := h.2.1
  omega

theorem nameLen_succ_toNat (h : IsName n) (hlt : n.length < 255) :
    (nameLen n + 1).toNat = n.length + 1 := by
  rw [UInt8.toNat_add, nameLen_toNat h]
  exact Nat.mod_eq_of_lt (by simp; omega)

theorem nameLen_wrap (h : IsName n) (hge : ¬ n.length < 255) :
    (nameLen n + 1).toNat % 2 ^ 32 = 0 := by
  have hlen : n.length = 255 := by have := h.2.1; omega
  rw [UInt8.toNat_add, nameLen_toNat h, hlen]
  rfl

@[simp] theorem counted_length (n : Bytes) : (counted n).length = n.length + 1 := rfl

@[simp] theorem fieldImage_length (d : LowData) : (fieldImage d).length = fieldSize d := by
  simp [fieldImage, valueImage, fieldSize, LowData.len]
  omega

theorem rowImage_length (row : RowData) :
    (rowImage row).length = 2 + (row.datas.map fieldSize).sum := by
  unfold rowImage
  rw [length_append, leBytes_length, length_flatten, map_map]
  congr 2
  exact map_congr_left fun d _ => fieldImage_length d

/-! ## §5. What the encoders write. -/

theorem flatten_namePieces (h : IsName n) : (namePieces n).flatten = counted n := by
  unfold namePieces counted
  rw [nameLen_toNat h, take_length]
  simp

theorem flatten_fieldPieces {d : LowData} (h : IsName d.fieldName) :
    (namePieces d.fieldName ++ valuePieces d).flatten = fieldImage d := by
  rw [List.flatten_append, flatten_namePieces h]
  simp [fieldImage, valueImage, valuePieces]

variable {pool : Nat}

theorem memPoolMalloc_some {size : Nat} (h : size ≤ pool) :
    memPoolMalloc pool size = some (replicate size 0) := if_neg (by omega)

theorem createBinlogRecord_some {n : Nat} (hn : n < 2 ^ 31) (hpool : headerSize + n ≤ pool) :
    ∃ h, createBinlogRecord pool n =
      some ⟨0, 0, 0, 0, 0, replicate n 0, h⟩ := by
  unfold createBinlogRecord
  have hmod : n % 2 ^ 32 = n := Nat.mod_eq_of_lt (by omega)
  simp only [hmod]
  rw [dif_pos hn, memPoolMalloc_some hpool]
  exact ⟨by rw [length_replicate]; unfold headerSize; omega, rfl⟩

variable {r : BinlogRecord} {op : BinOp}

theorem createBinlogRecord_length {n : Nat} (h : createBinlogRecord pool n = some r) :
    r.data.length = n % 2 ^ 32 ∧ r.data.length < 2 ^ 31 := by
  unfold createBinlogRecord at h
  simp only at h
  split at h
  · next hn =>
      obtain ⟨b, -, rfl⟩ := Option.map_eq_some_iff.mp h
      rw [length_replicate]
      exact ⟨rfl, hn⟩
  · cases h

@[simp] theorem fill_data_length (r : BinlogRecord) (ps : List Bytes) :
    (BinlogRecord.fill r ps).data.length = r.data.length := copyAll_length _ _ _

theorem copyAll_zeros {ps : List Bytes} {w : Bytes} (h : ps.flatten = w) :
    copyAll (replicate w.length 0) 0 ps = w := by
  rw [copyAll_exact _ _ (by rw [h, length_replicate]), h]

theorem rowdataToLowdata_some {row : RowData} (hnames : ∀ d ∈ row.datas, IsName d.fieldName)
    (hlen : (rowImage row).length < 2 ^ 32) (hpool : (rowImage row).length ≤ pool)
    (h256 : 256 ≤ pool) : rowdataToLowdata pool row = some (rowImage row) := by
  have hmod : (2 + (row.datas.map fieldSize).sum) % 2 ^ 32 = (rowImage row).length := by
    rw [← rowImage_length, Nat.mod_eq_of_lt hlen]
  unfold rowdataToLowdata
  rw [memPoolMalloc_some (by unfold sizeofLowData; omega), hmod]
  -- the pieces of all columns, flattened, are the image of the row
  have hflat : (leBytes 2 row.fieldCount ::
      (row.datas.map fun d => namePieces d.fieldName ++ valuePieces d).flatten).flatten
      = rowImage row := by
    unfold rowImage
    rw [flatten_cons, flatten_flatten, map_map]
    congr 2
    exact map_congr_left fun d hd => flatten_fieldPieces (hnames d hd)
  simp only [Option.bind_eq_bind, Option.bind_some, memPoolMalloc_some hpool, Option.pure_def]
  rw [copyAll_zeros hflat]

def BinOp.record (op : BinOp) (h : headerSize + op.payload.length < 2 ^ 32) : BinlogRecord :=
  ⟨0, op.sid, op.docid, 0, op.code.toByte, op.payload, h⟩

section Encoded

variable (g : BinlogRecord → BinlogRecord) (n : Nat) (ps : List Bytes)
  (hg : ∀ w h, g ⟨0, 0, 0, 0, 0, w, h⟩ = ⟨0, op.sid, op.docid, 0, op.code.toByte, w, h⟩)
  (hps : ps.flatten = op.payload) (hn : n = op.payload.length) (hlt : op.payload.length < 2 ^ 31)
  (hpool : headerSize + op.payload.length ≤ pool) (h : headerSize + op.payload.length < 2 ^ 32)

include hg hps hn hlt hpool

theorem toBinrecord_of_fill :
    (createBinlogRecord pool n).bind (fun r => some (BinlogRecord.fill (g r) ps))
      = some (op.record h) := by
  subst hn
  obtain ⟨hrep, hr⟩ := createBinlogRecord_some hlt hpool
  rw [hr]
  simp only [Option.bind_some, hg, BinlogRecord.fill, copyAll_zeros hps, BinOp.record]

theorem toBinrecord_of_packed :
    (packedRecord pool n ps).bind (fun r => some (g r)) = some (op.record h) := by
  subst hn
  have hmod : op.payload.length % 2 ^ 32 = op.payload.length := Nat.mod_eq_of_lt (by omega)
  obtain ⟨hrep, hr⟩ := createBinlogRecord_some hlt hpool
  unfold packedRecord
  rw [hmod, memPoolMalloc_some (by omega), hr]
  simp only [Option.bind_eq_bind, Option.bind_some, Option.pure_def, copyAll_zeros hps,
    BinlogRecord.fill, copyAll_zeros (flatten_singleton (l := op.payload)), hg, BinOp.record]

end Encoded

theorem BinOp.Carried.payload_lt (h : op.Carried) : op.payload.length < 2 ^ 31 := by
  cases op with
  | load => exact h.elim
  | unload table sid | compress table =>
    have h' : table.length < 255 := h
    show table.length + 1 < 2 ^ 31
    omega
  | _ => exact h

/-- **What the encoders write**: a carried operation that fits the pool is
encoded in the layout of its kind. -/
theorem toBinrecord_eq (hvalid : op.Valid) (hfits : op.Fits pool) (hcarried : op.Carried)
    (h : headerSize + op.payload.length < 2 ^ 32) : op.toBinrecord pool = some (op.record h) := by
  obtain ⟨h256, hpool, -⟩ := hfits
  have hlt := hcarried.payload_lt
  cases op with
  | insert table sid docid row =>
    obtain ⟨htable, hrow⟩ := hvalid
    have hsize : (counted table).length + (rowImage row).length < 2 ^ 31 := by
      rw [← length_append]; exact hlt
    have hroom : headerSize + ((counted table).length + (rowImage row).length) ≤ pool := by
      rw [← length_append]; exact hpool
    have hpacked := rowdataToLowdata_some (fun d hd => (hrow d hd).1) (by omega) (by omega) h256
    show dbInsertToBinrecord pool table sid docid row = _
    unfold dbInsertToBinrecord
    rw [hpacked]
    exact toBinrecord_of_fill _ _ _ (fun _ _ => rfl)
      (by simp [flatten_namePieces htable, BinOp.payload])
      (by simp [BinOp.payload]; omega) hlt hpool h
  | update table sid docid newData =>
    obtain ⟨htable, hfield, -⟩ := hvalid
    exact toBinrecord_of_packed _ _ _ (fun _ _ => rfl)
      (by rw [append_assoc, List.flatten_append, flatten_namePieces htable,
            flatten_fieldPieces hfield]; rfl)
      (by rw [nameLen_toNat htable, nameLen_toNat hfield]
          simp [BinOp.payload, fieldSize]; omega) hlt hpool h
  | delete table sid docid =>
    exact toBinrecord_of_fill _ _ _ (fun _ _ => rfl) (flatten_namePieces hvalid)
      (by rw [nameLen_toNat hvalid]; rfl) hlt hpool h
  | index | dindex =>
    obtain ⟨htable, hfield⟩ := hvalid
    exact toBinrecord_of_packed _ _ _ (fun _ _ => rfl)
      (by simp [flatten_namePieces htable, flatten_namePieces hfield, BinOp.payload])
      (by rw [nameLen_toNat htable, nameLen_toNat hfield]; simp [BinOp.payload]; omega)
      hlt hpool h
  | load => exact hcarried.elim
  | unload | compress =>
    exact toBinrecord_of_fill _ _ _ (fun _ _ => rfl) (flatten_namePieces hvalid)
      (nameLen_succ_toNat hvalid hcarried) hlt hpool h

/-! ### How long the record is, carried or not. -/

theorem fill_length {n : Nat} {g : BinlogRecord → BinlogRecord} {ps : List Bytes}
    (hr : (createBinlogRecord pool n).bind (fun r => some (BinlogRecord.fill (g r) ps)) = some r)
    (hg : ∀ r, (g r).data = r.data) : r.data.length = n % 2 ^ 32 ∧ r.data.length < 2 ^ 31 := by
  obtain ⟨r₀, h₀, h₁⟩ := Option.bind_eq_some_iff.mp hr
  cases h₁
  rw [fill_data_length, hg]
  exact createBinlogRecord_length h₀

theorem packedRecord_length {n : Nat} {g : BinlogRecord → BinlogRecord} {ps : List Bytes}
    (hr : (packedRecord pool n ps).bind (fun r => some (g r)) = some r)
    (hg : ∀ r, (g r).data = r.data) : r.data.length < 2 ^ 31 := by
  obtain ⟨r₀, hpacked, h₁⟩ := Option.bind_eq_some_iff.mp hr
  obtain ⟨buf, -, hrest⟩ := Option.bind_eq_some_iff.mp hpacked
  cases h₁
  rw [hg]
  exact (fill_length (g := id) hrest fun _ => rfl).2

theorem toBinrecord_short (hvalid : op.Valid) (hnot : ¬ op.Carried) (hload : op.code ≠ .load)
    (h : op.toBinrecord pool = some r) : r.data.length < op.payload.length := by
  cases op with
  | insert table sid docid row =>
    obtain ⟨buf, -, hrest⟩ := Option.bind_eq_some_iff.mp h
    exact lt_of_lt_of_le (fill_length hrest fun _ => rfl).2 (not_lt.mp hnot)
  | update | index | dindex =>
    exact lt_of_lt_of_le (packedRecord_length h fun _ => rfl) (not_lt.mp hnot)
  | delete => exact lt_of_lt_of_le (fill_length h fun _ => rfl).2 (not_lt.mp hnot)
  | load => exact absurd rfl hload
  | unload | compress =>
    -- the name has 255 bytes, and 255 + 1 is 0 in the length byte
    rw [(fill_length h fun _ => rfl).1, nameLen_wrap hvalid hnot]
    exact Nat.succ_pos _

/-! ## §6. What the decoders read. -/

theorem cString_of_isName (h : IsName n) : cString n = n := by
  unfold cString
  rw [takeWhile_eq_self_iff]
  intro b hb
  have hne : b ≠ 0 := fun h0 => h.2.2 (h0 ▸ hb)
  simpa using hne

theorem cString_length_le (b : Bytes) : (cString b).length ≤ b.length :=
  (takeWhile_sublist _).length_le

theorem cString_replicate (n : Nat) : cString (replicate n 0) = [] := by
  cases n <;> simp [cString, replicate_succ]

section Decoding

variable {pool : Nat}

theorem reads_readName (hpool : 256 ≤ pool) {n : Bytes} (h : IsName n) :
    Reads (readName pool) (counted n) n := by
  have hlen := nameLen_toNat h
  have hsize := h.2.1
  have hraw := (reads_getBytes hlen.symm).map cString
  rw [cString_of_isName h] at hraw
  exact (reads_getByte (nameLen n)).bind ((reads_lift (memPoolMalloc_some (by omega))).bind hraw)

theorem spends_readName : Spends (readName pool) (fun n => (counted n).length) := by
  refine spends_getByte.bind fun len => ?_
  refine (spends_lift _ (n := fun _ => 0) fun _ _ => rfl).bind fun _ => ?_
  refine (spends_getBytes _).bind fun raw => spends_pure ?_
  have := cString_length_le raw
  simp only [counted_length]
  omega

theorem reads_readFieldType (t : FieldType) : Reads readFieldType [t.toByte] t :=
  (reads_getByte t.toByte).bind (reads_lift (FieldType.ofByte?_toByte t))

theorem spends_readFieldType : Spends readFieldType (fun _ => 1) :=
  spends_getByte.bind fun _ => spends_lift _ fun _ _ => rfl

theorem reads_readIndexType (a : IndexKeyAlg) : Reads readIndexType [a.toByte] a :=
  (reads_getByte a.toByte).bind (reads_lift (IndexKeyAlg.ofByte?_toByte a))

theorem spends_readIndexType : Spends readIndexType (fun _ => 1) :=
  spends_getByte.bind fun _ => spends_lift _ fun _ _ => rfl

variable {d : LowData} {table : Bytes}

theorem reads_value {β : Type} (hlen : d.len < 2 ^ 32) (f : Bytes → β) :
    Reads (getWord 4 >>= fun len => getBytes len >>= fun data => pure (f data))
      (leBytes 4 d.len ++ d.data) (f d.data) := by
  exact (reads_getWord (by norm_num at hlen ⊢; exact hlen)).bind ((reads_getBytes rfl).map f)

theorem reads_readField (hpool : 256 ≤ pool) (hname : IsName d.fieldName)
    (hlen : d.len < 2 ^ 32) : Reads (readField pool) (fieldImage d) d := by
  have hvalue := reads_value hlen fun data => (⟨d.fieldName, d.type, data⟩ : LowData)
  exact (reads_readName hpool hname).bind ((reads_readFieldType d.type).bind hvalue)

theorem spends_readField : Spends (readField pool) fieldSize := by
  refine spends_readName.bind fun name => ?_
  refine spends_readFieldType.bind fun type => ?_
  refine (spends_getWord 4).bind fun len => ?_
  refine (spends_getBytes len).bind fun data => spends_pure ?_
  simp only [fieldSize, LowData.len, counted_length]
  omega

/-- A row is read back from its bytes. -/
theorem reads_lowdataToRowdata (hpool : 256 ≤ pool) {row : RowData}
    (hrow : ∀ d ∈ row.datas, IsName d.fieldName ∧ d.len < 2 ^ 32)
    (hcount : row.fieldCount * sizeofLowData ≤ pool) :
    Reads (lowdataToRowdata pool) (rowImage row) row := by
  have hword : row.fieldCount < 256 ^ 2 := by
    have := row.count_lt
    unfold RowData.fieldCount
    norm_num at this ⊢
    exact this
  have hdatas := (reads_getTimes row.datas fun d hd =>
    reads_readField hpool (hrow d hd).1 (hrow d hd).2).bind
      (f := fun datas => StateT.lift
        (if h : datas.length < 2 ^ 16 then some (⟨datas, h⟩ : RowData) else none))
      (reads_lift (dif_pos row.count_lt))
  rw [append_nil] at hdatas
  have halloc := (reads_lift (memPoolMalloc_some hcount)).bind
    (f := fun _ => getTimes (readField pool) row.fieldCount >>= fun datas => StateT.lift
      (if h : datas.length < 2 ^ 16 then some (⟨datas, h⟩ : RowData) else none)) hdatas
  exact (reads_lift (memPoolMalloc_some (by unfold sizeofRowData; omega))).bind
    ((reads_getWord hword).bind halloc)

theorem spends_lowdataToRowdata :
    Spends (lowdataToRowdata pool) (fun row => (rowImage row).length) := by
  refine (spends_lift _ (n := fun _ => 0) fun _ _ => rfl).bind fun _ => ?_
  refine (spends_getWord 2).bind fun count => ?_
  refine (spends_lift _ (n := fun _ => 0) fun _ _ => rfl).bind fun _ => ?_
  refine (spends_getTimes spends_readField count).bind fun datas => spends_lift _ ?_
  intro row hrow
  -- the row returned is the list of columns just read
  split at hrow
  · cases hrow
    rw [rowImage_length]
    simp only
    omega
  · cases hrow

/-! ### The decoder of each kind. -/

theorem reads_insert (hpool : 256 ≤ pool) {row : RowData} (htable : IsName table)
    (hrow : ∀ d ∈ row.datas, IsName d.fieldName ∧ d.len < 2 ^ 32)
    (hcount : row.fieldCount * sizeofLowData ≤ pool) :
    Reads (dbBinrecordToInsert pool) (counted table ++ rowImage row) (table, row) := by
  exact (reads_readName hpool htable).bind
    ((reads_lowdataToRowdata hpool hrow hcount).map fun row => (table, row))

theorem reads_update (hpool : 256 ≤ pool) (htable : IsName table)
    (hfield : IsName d.fieldName) (hlen : d.len < 2 ^ 32) :
    Reads (dbBinrecordToUpdate pool) (counted table ++ fieldImage d) (table, d) := by
  have hvalue := reads_value hlen fun data => (table, (⟨d.fieldName, d.type, data⟩ : LowData))
  have hsize : sizeofLowData ≤ pool := by unfold sizeofLowData; omega
  have halloc := (reads_lift (memPoolMalloc_some hsize)).bind (f := fun _ => _) hvalue
  exact (reads_readName hpool htable).bind
    ((reads_readName hpool hfield).bind ((reads_readFieldType d.type).bind halloc))

theorem reads_dindex (hpool : 256 ≤ pool) {field : Bytes} (htable : IsName table)
    (hfield : IsName field) (a : IndexKeyAlg) :
    Reads (dbBinrecordToDindex pool) (counted table ++ (counted field ++ [a.toByte]))
      (table, field, a) := by
  exact (reads_readName hpool htable).bind ((reads_readName hpool hfield).bind
    ((reads_readIndexType a).map fun a => (table, field, a)))

theorem reads_index (hpool : 256 ≤ pool) {field : Bytes} (htable : IsName table)
    (hfield : IsName field) (a : IndexKeyAlg) (t : FieldType) :
    Reads (dbBinrecordToIndex pool) (t.toByte :: (counted table ++ (counted field ++ [a.toByte])))
      (t, table, field, a) := by
  exact (reads_readFieldType t).bind ((reads_readName hpool htable).bind
    ((reads_readName hpool hfield).bind
      ((reads_readIndexType a).map fun a => (t, table, field, a))))

/-- **What the decoders read**: from a record in the layout of its kind, the
operation, unless it is a `load`. -/
theorem dbExecuteBinrecord_record {op : BinOp} (hvalid : op.Valid) (hfits : op.Fits pool)
    (hload : op.code ≠ .load) (h : headerSize + op.payload.length < 2 ^ 32) :
    dbExecuteBinrecord pool (op.record h) = some op := by
  obtain ⟨h256, -, hcount⟩ := hfits
  unfold dbExecuteBinrecord BinOp.record
  simp only [OperationCode.ofByte?_toByte]
  cases op with
  | insert table sid docid row =>
    exact congrArg (Option.map _) (reads_insert h256 hvalid.1 hvalid.2 hcount).on
  | update table sid docid newData =>
    exact congrArg (Option.map _) (reads_update h256 hvalid.1 hvalid.2.1 hvalid.2.2).on
  | delete table sid docid | unload table sid | compress table =>
    exact congrArg (Option.map _) (reads_readName h256 hvalid).on
  | index table field indexType dataType =>
    exact congrArg (Option.map _) (reads_index h256 hvalid.1 hvalid.2 indexType dataType).on
  | dindex table field indexType =>
    exact congrArg (Option.map _) (reads_dindex h256 hvalid.1 hvalid.2 indexType).on
  | load => exact absurd rfl hload

/-! ### What no decoder can return. -/

theorem spends_insert : Spends (dbBinrecordToInsert pool)
    (fun a => (counted a.1 ++ rowImage a.2).length) := by
  refine spends_readName.bind fun table => ?_
  refine spends_lowdataToRowdata.bind fun row => spends_pure ?_
  simp only [length_append]
  omega

theorem spends_update : Spends (dbBinrecordToUpdate pool)
    (fun a => (counted a.1 ++ fieldImage a.2).length) := by
  refine spends_readName.bind fun table => ?_
  refine spends_readName.bind fun field => ?_
  refine spends_readFieldType.bind fun type => ?_
  refine (spends_lift _ (n := fun _ => 0) fun _ _ => rfl).bind fun _ => ?_
  refine (spends_getWord 4).bind fun len => ?_
  refine (spends_getBytes len).bind fun data => spends_pure ?_
  simp only [length_append, fieldImage_length, fieldSize, LowData.len, counted_length]
  omega

theorem spends_index : Spends (dbBinrecordToIndex pool)
    (fun a => 1 + (counted a.2.1).length + (counted a.2.2.1).length + 1) := by
  refine spends_readFieldType.bind fun type => ?_
  refine spends_readName.bind fun table => ?_
  refine spends_readName.bind fun field => ?_
  refine spends_readIndexType.bind fun a => spends_pure ?_
  simp only
  omega

theorem spends_dindex : Spends (dbBinrecordToDindex pool)
    (fun a => (counted a.1).length + (counted a.2.1).length + 1) := by
  refine spends_readName.bind fun table => ?_
  refine spends_readName.bind fun field => ?_
  refine spends_readIndexType.bind fun a => spends_pure ?_
  simp only
  omega

theorem payload_le {α : Type} {p : Cursor α} {k : α → Nat} (hp : Spends p k) {g : α → BinOp}
    (hg : ∀ a, (g a).payload.length = k a) {s : Bytes} {op : BinOp} (h : (p.on s).map g = some op) :
    op.payload.length ≤ s.length := by
  obtain ⟨a, hon, rfl⟩ := Option.map_eq_some_iff.mp h
  rw [hg]
  exact hp.on hon

theorem payload_le_of_execute {r : BinlogRecord} {op : BinOp} (hload : op.code ≠ .load)
    (h : dbExecuteBinrecord pool r = some op) : op.payload.length ≤ r.data.length := by
  unfold dbExecuteBinrecord at h
  split at h
  · exact payload_le spends_readName (fun _ => rfl) h
  · exact payload_le spends_insert (fun _ => rfl) h
  · exact payload_le spends_update (fun _ => rfl) h
  · exact payload_le spends_index (fun _ => by simp [BinOp.payload]; omega) h
  · exact payload_le spends_dindex (fun _ => by simp [BinOp.payload]; omega) h
  · exact payload_le spends_readName (fun _ => rfl) h
  · obtain ⟨a, -, rfl⟩ := Option.map_eq_some_iff.mp h
    exact absurd rfl hload
  · exact payload_le spends_readName (fun _ => rfl) h
  · cases h

theorem dbBinrecordToLoad_dir {s : Bytes} {a : Bytes × Bytes}
    (h : (dbBinrecordToLoad pool).on s = some a) : a.2 = [] := by
  obtain ⟨⟨b, s'⟩, hrun, rfl⟩ := Option.map_eq_some_iff.mp h
  obtain ⟨table, s₁, -, hrun⟩ := run_bind_eq_some hrun
  obtain ⟨len, s₂, -, hrun⟩ := run_bind_eq_some hrun
  obtain ⟨dir, s₃, halloc, hrun⟩ := run_bind_eq_some hrun
  have hdir : dir = replicate (len.toNat + 1) 0 := by
    unfold memPoolMalloc at halloc
    split at halloc
    · cases halloc
    · cases halloc
      rfl
  cases hrun
  rw [hdir]
  exact cString_replicate _

theorem segmentDir_of_execute {r : BinlogRecord} {dir : Bytes} {sid : UInt16}
    (h : dbExecuteBinrecord pool r = some (.load table sid dir)) : dir = [] := by
  unfold dbExecuteBinrecord at h
  split at h
  case h_7 =>
    obtain ⟨a, hon, heq⟩ := Option.map_eq_some_iff.mp h
    cases heq
    exact dbBinrecordToLoad_dir hon
  all_goals simp at h

end Decoding

/-! ## §7. The round trip. -/

/-- **THE RECORD OF AN OPERATION BECOMES THE OPERATION AGAIN** exactly for the
carried operations: never for a `load`, whose directory the decoder does not
copy; for `unload` and `compress` with a table name of less than 255 bytes;
for the other kinds when the record stays below 2^31 bytes. -/
theorem binrecord_round_trip (pool : Nat) (op : BinOp) (hvalid : op.Valid)
    (hfits : op.Fits pool) :
    (op.toBinrecord pool).bind (dbExecuteBinrecord pool) = some op ↔ op.Carried := by
  constructor
  · intro h
    obtain ⟨r, henc, hdec⟩ := Option.bind_eq_some_iff.mp h
    by_contra hnot
    by_cases hload : op.code = .load
    · cases op with
      | load table sid dir => exact hvalid.2.1 (segmentDir_of_execute hdec)
      | _ => cases hload
    · have hle := payload_le_of_execute hload hdec
      have hshort := toBinrecord_short hvalid hnot hload henc
      omega
  · intro hcarried
    have hlt := hcarried.payload_lt
    have h32 : headerSize + op.payload.length < 2 ^ 32 := by unfold headerSize; omega
    have hload : op.code ≠ .load := by
      intro hl
      cases op with
      | load => exact hcarried
      | _ => cases hl
    rw [toBinrecord_eq hvalid hfits hcarried h32]
    exact dbExecuteBinrecord_record hvalid hfits hload h32

def sampleRow : RowData :=
  { datas := [⟨[97], .long, [1, 0, 0, 0]⟩, ⟨[98, 99], .string, []⟩], count_lt := by decide }

theorem binrecord_round_trip_insert :
    ((BinOp.insert [116] 3 7 sampleRow).toBinrecord 1024).bind (dbExecuteBinrecord 1024)
      = some (.insert [116] 3 7 sampleRow) :=
  (binrecord_round_trip 1024 (.insert [116] 3 7 sampleRow) (by decide) (by decide)).mpr
    (show (BinOp.payload _).length < 2 ^ 31 by decide)

/-- Loading segment 1 of table `t` from directory `d` is executed as a load
from the empty directory. -/
theorem load_loses_directory :
    (BinOp.load [116] 1 [100]).Valid ∧ (BinOp.load [116] 1 [100]).Fits 1024 ∧
      ((BinOp.load [116] 1 [100]).toBinrecord 1024).bind (dbExecuteBinrecord 1024)
        = some (.load [116] 1 []) := by
  refine ⟨by decide, by decide, ?_⟩
  rfl

end Mile.DocDb
