/-
  Mile.Merge.ResultMessage
  ────────────────────────
  **READING A RESULT MESSAGE** (`util/ByteConveror.java`: `getData`, `AccessRsMessage.java`,
  `SelectStep.java`: `parseResultMessage`).

  The mergeserver reads a docserver's packet through a `DataInput`.  All lengths are `int`, so the
  announced length of a message is below 2^31.
-/
import Mile.Lib.Text
import Mile.Merge.Value
import Mile.Protocol.DataBuffer

namespace Mile.Merge

open Lib Common Protocol List

/-! ## §1. Objects. -/

/-- An object `getData` makes.  A `HashSet` is the list of its elements. -/
inductive Obj where
  | value (v : Value)
  | set (elements : List Obj)
  | list (elements : List Obj)

mutual

/-- `equals`.  Two sets are equal if each element of one is in the other. -/
def Obj.equals : Obj → Obj → Bool
  | .value a, .value b => a = b
  | .set as, .set bs => Obj.inSet as bs && bs.all (Obj.hasEqual as)
  | .list as, .list bs => Obj.listEquals as bs
  | _, _ => false

def Obj.inSet : List Obj → List Obj → Bool
  | [], _ => true
  | a :: as, bs => bs.any a.equals && Obj.inSet as bs

/-- One of the objects equals `b`. -/
def Obj.hasEqual : List Obj → Obj → Bool
  | [], _ => false
  | a :: as, b => a.equals b || Obj.hasEqual as b

/-- The `equals` of two lists. -/
def Obj.listEquals : List Obj → List Obj → Bool
  | [], [] => true
  | a :: as, b :: bs => a.equals b && Obj.listEquals as bs
  | _, _ => false

end

/-- `set.add`. -/
def addObj (set : List Obj) (o : Obj) : List Obj := if set.any o.equals then set else set ++ [o]

def hashSet (objs : List Obj) : List Obj := objs.foldl addObj []

/-! ## §2. Reading. -/

inductive ReadFault where
  | eof
  | negativeArraySize
  | illegalArgument
  | indexOutOfBounds
  | nullPointer
  deriving Repr, DecidableEq

/-- A reader of a `DataInput`; the state is the bytes that are left. -/
abbrev Read := StateT Bytes (Except ReadFault)

/-- `readFully`. -/
def readFully (n : Nat) : Read Bytes := fun input =>
  if n ≤ input.length then .ok (input.take n, input.drop n) else .error .eof

def readNumber (width : Nat) : Read Nat := return beNat (← readFully width)

/-- `readByte`. -/
def readByte : Read Int8 := return .ofBitVec (.ofNat 8 (← readNumber 1))

/-- `readShort`. -/
def readShort : Read Int16 := return .ofBitVec (.ofNat 16 (← readNumber 2))

/-- `readInt`. -/
def readInt : Read Int32 := return .ofBitVec (.ofNat 32 (← readNumber 4))

/-- `readLong`. -/
def readLong : Read Int64 := return .ofBitVec (.ofNat 64 (← readNumber 8))

/-- `new byte[len]` and `readFully` into it. -/
def readArray (len : Int) : Read Bytes :=
  if len < 0 then throw .negativeArraySize else readFully len.toNat

/-- The body of a loop, `n` times. -/
def readTimes {α : Type} (body : Read α) : Nat → Read (List α)
  | 0 => return []
  | n + 1 => return (← body) :: (← readTimes body n)

/-- The place of a float of `w + 1` bits in the order, from its bits; a magnitude above
`infinity` is a NaN, and all of these are one value. -/
def floatPlace (w infinity nan bits : Nat) : Int :=
  let magnitude := bits % 2 ^ w
  if infinity < magnitude then nan
  else if bits < 2 ^ w then magnitude
  else -(magnitude : Int) - 1

/-- `readFloat`. -/
def readFloat : Read Value :=
  return .float (floatPlace 31 0x7f800000 0x7fc00000 (← readNumber 4))

/-- `readDouble`. -/
def readDouble : Read Value :=
  return .double (floatPlace 63 0x7ff0000000000000 0x7ff8000000000000 (← readNumber 8))

/-- The codes of `TypeCode.java` that `getData` knows. -/
inductive TypeCode where
  | null
  | int8
  | int16
  | int32
  | int64
  | float
  | double
  | set
  | array
  | bytes
  | notcomp
  | string
  deriving DecidableEq

def TypeCode.value : TypeCode → Int8
  | .null => 0
  | .int8 => 1
  | .int16 => 2
  | .int32 => 4
  | .float => 6
  | .double => 7
  | .int64 => 10
  | .set => 19
  | .array => 50
  | .bytes => 51
  | .notcomp => 52
  | .string => -2

def TypeCode.ofByte? (b : Int8) : Option TypeCode :=
  [.null, .int8, .int16, .int32, .int64, .float, .double, .set, .array, .bytes, .notcomp,
    .string].find? fun (c : TypeCode) => c.value = b

section Reader

-- what `new String(bytes, "utf-8")` makes of bytes that are no text
variable (malformed : Bytes → List UInt16)

/-- The `switch` of `getData`; `element` reads an element of a container. -/
def getTyped (element : Read Obj) (len : Int32) : Option TypeCode → Read Obj
  | some .int8 => return .value (.byte (← readByte))
  | some .int16 => return .value (.short (← readShort))
  | some .int32 => return .value (.integer (← readInt))
  | some .int64 => return .value (.long (← readLong))
  | some .float => return .value (← readFloat)
  | some .double => return .value (← readDouble)
  | some .bytes => do
    -- a new array: it is known by where it was read
    let place := (← get).length
    let _ ← readArray len.toInt
    return .value (.bytes place)
  | some .string => return .value (.string (decodeText malformed (← readArray len.toInt)))
  | some .set => return .set (hashSet (← readTimes element len.toInt.toNat))
  | some .array => return .list (← readTimes element len.toInt.toNat)
  | _ => throw .illegalArgument

/-- `getData` with at most `fuel` calls inside each other.  A call reads at least one byte,
so that the bytes that are left are enough calls. -/
def getDataWith : Nat → Read Obj
  | 0 => throw .eof
  | fuel + 1 => do
    let tc ← readByte
    match TypeCode.ofByte? tc with
    | some .null => return .value .null
    | some .notcomp => return .value .null
    | code => getTyped malformed (getDataWith fuel) (← readInt) code

/-- `getData`. -/
def getData : Read Obj := fun input => getDataWith malformed (input.length + 1) input

/-- `KeyValueData`. -/
structure KeyValueData where
  key : List UInt16
  value : Obj

/-- `MT_DM_RS`. -/
def mtDmRs : Nat := 0x2201

/-- `AccessRsMessage`. -/
structure AccessRsMessage where
  nodeId : Int32
  length : Int32
  version : Int16
  type : Int16
  id : Int32
  resultRows : Int32
  stat : List KeyValueData
  values : Option Bytes

/-- A `Record` as it is read. -/
structure ReadRecord where
  docid : Int64
  data : List Obj

/-- The body of the loop of `parseResultMessage`, for `fields` select fields. -/
def parseRecord (nodeId : Int32) (fields : Nat) : Read ReadRecord := do
  let handler ← readLong
  let data ← readTimes (getData malformed) fields
  return ⟨(nodeId.toInt64 <<< 48) + handler, data⟩

/-- `parseResultMessage`: the records, and the bytes that are left. -/
def parseResultMessage (message : AccessRsMessage) (fields : Nat) :
    Except ReadFault (List ReadRecord × Bytes) :=
  match message.values with
  | none => .error .nullPointer
  | some values =>
    readTimes (parseRecord malformed message.nodeId fields) message.resultRows.toInt.toNat values

end Reader

end Mile.Merge
