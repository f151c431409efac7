/-
  Mile.Common.Def
  ───────────────
  **THE SHARED DATA MODEL OF THE DOCSERVER** (`common/def.h`).

  Sizes, result codes, column types, index algorithms, `LowData` (one value with its column name)
  and `RowData` (one row).  A C string is the byte string before its NUL.
-/
import Mile.Lib.LittleEndian

namespace Mile.Common

open Lib

/-! ## §1. Sizes and result codes. -/

/-- `MB_SIZE`. -/
def mbSize : Nat := 2 ^ 20

/-- `KB_SIZE`. -/
def kbSize : Nat := 2 ^ 10

/-- `MAX_BINLOG_DATA_PER_PACKET`. -/
def maxBinlogDataPerPacket : Nat := kbSize * 512

/-- The result codes the modelled functions return (`enum result_code_t`). -/
inductive ResultCode where
  | success
  | errorBinlogFailed
  | errorInsertRepeat
  | errorPkConflict
  | errorHashConflict
  | errorOnlyFilterSupport
  | errorIndexFieldCompressed
  | errorInsertFailded
  | errorCommpressFail
  | errorExceedLimit
  | errorFieldNotWork
  | errorNotNeedCompress
  | errorFieldInitFailed
  | errorSegmentInitFailed
  | errorSegmentNotInit
  | errorExceedSegmentNum
  | errorTableDeleted
  | errorMmapSwitch
  | errorPacketFormat
  | errorNotEnoughMemory
  deriving Repr, DecidableEq

def ResultCode.value : ResultCode → Int
  | .success => 0
  | .errorBinlogFailed => -3988
  | .errorInsertRepeat => -4002
  | .errorPkConflict => -4001
  | .errorHashConflict => -4003
  | .errorOnlyFilterSupport => -3695
  | .errorIndexFieldCompressed => -3687
  | .errorInsertFailded => -4000
  | .errorCommpressFail => -4005
  | .errorExceedLimit => -3899
  | .errorFieldNotWork => -3691
  | .errorNotNeedCompress => -3688
  | .errorFieldInitFailed => -3997
  | .errorSegmentInitFailed => -3996
  | .errorSegmentNotInit => -3991
  | .errorExceedSegmentNum => -3896
  | .errorTableDeleted => -3797
  | .errorMmapSwitch => -4007
  | .errorPacketFormat => -1002
  | .errorNotEnoughMemory => -3005

/-! ## §2. Column types and index algorithms. -/

/-- `enum field_types`. -/
inductive FieldType where
  | null
  | tiny
  | short
  | unsignedShort
  | long
  | unsignedLong
  | float
  | double
  | timestamp
  | longlong
  | unsignedLonglong
  | varchar
  | set
  | array
  | bytes
  | notcomp
  | string
  deriving Repr, DecidableEq

def FieldType.toByte : FieldType → UInt8
  | .null => 0
  | .tiny => 1
  | .short => 2
  | .unsignedShort => 3
  | .long => 4
  | .unsignedLong => 5
  | .float => 6
  | .double => 7
  | .timestamp => 9
  | .longlong => 10
  | .unsignedLonglong => 11
  | .varchar => 18
  | .set => 19
  | .array => 50
  | .bytes => 51
  | .notcomp => 52
  | .string => 254

def FieldType.all : List FieldType :=
  [.null, .tiny, .short, .unsignedShort, .long, .unsignedLong, .float, .double,
   .timestamp, .longlong, .unsignedLonglong, .varchar, .set, .array, .bytes,
   .notcomp, .string]

/-- The cast `(enum field_types)byte`, for the bytes that are enumerators. -/
def FieldType.ofByte? (b : UInt8) : Option FieldType :=
  FieldType.all.find? (fun t => t.toByte == b)

@[simp] theorem FieldType.ofByte?_toByte (t : FieldType) :
    FieldType.ofByte? t.toByte = some t := by
  cases t <;> rfl

/-- `get_unit_size`: the width of a fixed-width type, 0 for the others. -/
def FieldType.unitSize : FieldType → Nat
  | .tiny => 1
  | .short => 2
  | .unsignedShort => 2
  | .long => 4
  | .unsignedLong => 4
  | .longlong => 8
  | .unsignedLonglong => 8
  | .float => 4
  | .double => 8
  | _ => 0

/-- `enum index_key_alg`. -/
inductive IndexKeyAlg where
  | undef
  | btree
  | hash
  | filter
  | fulltext
  deriving Repr, DecidableEq

def IndexKeyAlg.toByte : IndexKeyAlg → UInt8
  | .undef => 0
  | .btree => 1
  | .hash => 2
  | .filter => 3
  | .fulltext => 4

/-- The cast `(enum index_key_alg)byte`, for the bytes that are enumerators. -/
def IndexKeyAlg.ofByte? (b : UInt8) : Option IndexKeyAlg :=
  [IndexKeyAlg.undef, .btree, .hash, .filter, .fulltext].find? (fun a => a.toByte == b)

@[simp] theorem IndexKeyAlg.ofByte?_toByte (a : IndexKeyAlg) :
    IndexKeyAlg.ofByte? a.toByte = some a := by
  cases a <;> rfl

/-- `enum compare_type`. -/
inductive CompareType where
  | eq
  | gt
  | ge
  | lt
  | le
  | in
  | betweenLg
  | betweenLge
  | betweenLeg
  | betweenLege
  | ne
  | match
  deriving Repr, DecidableEq

/-- `enum order_types`. -/
inductive OrderTypes where
  | asc
  | desc
  deriving Repr, DecidableEq

/-- `(int32_t)` of an unsigned 32-bit value. -/
def int32 (x : Nat) : Int := if x < 2 ^ 31 then x else (x : Int) - 2 ^ 32

/-! ## §3. Values and rows. -/

/-- `struct low_data_struct`: one value and the name of its column. -/
structure LowData where
  fieldName : Bytes
  type : FieldType
  data : Bytes
  deriving Repr, DecidableEq

/-- The `len` field. -/
def LowData.len (d : LowData) : Nat := d.data.length

/-- `struct row_data`: the values of one row; `field_count` is their number,
a 16-bit field. -/
structure RowData where
  datas : List LowData
  count_lt : datas.length < 2 ^ 16
  deriving DecidableEq

/-- The `field_count` field. -/
def RowData.fieldCount (r : RowData) : Nat := r.datas.length

end Mile.Common
