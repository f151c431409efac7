/-
  Mile.Merge.Value
  ────────────────
  **VALUES OF THE MERGESERVER** (`util/ByteConveror.java`, `Record.java`).

  The boxed numbers and `String` are `Comparable`; `null` and arrays of bytes are not.
  `compareTo` throws for an object of another class.
-/
import Mile.Common.Compare

namespace Mile.Merge

open Lib Common

/-! ## §1. Objects. -/

/-- The classes of comparable values. -/
inductive JavaClass where
  | byte
  | short
  | integer
  | long
  | float
  | double
  | string
  deriving Repr, DecidableEq

/-- An object `getData` makes.  A float or a double stands for its place in the
order; an array of bytes is known by its reference, as `equals` sees it. -/
inductive Value where
  | null
  | byte (n : Int8)
  | short (n : Int16)
  | integer (n : Int32)
  | long (n : Int64)
  | float (place : Int)
  | double (place : Int)
  | string (chars : List UInt16)
  | bytes (ref : Nat)
  deriving DecidableEq

/-- What the mergeserver throws. -/
inductive Fault where
  | nullPointer
  | classCast
  | indexOutOfBounds
  | numberFormat
  | sqlExecute
  | illegalSql
  deriving Repr, DecidableEq

namespace Value

/-- The class of a comparable value: `value instanceof Comparable`. -/
def comparable : Value → Option JavaClass
  | .null => none
  | .byte _ => some .byte
  | .short _ => some .short
  | .integer _ => some .integer
  | .long _ => some .long
  | .float _ => some .float
  | .double _ => some .double
  | .string _ => some .string
  | .bytes _ => none

def place : Value → List Int
  | .null => []
  | .byte n => [n.toInt]
  | .short n => [n.toInt]
  | .integer n => [n.toInt]
  | .long n => [n.toInt]
  | .float p => [p]
  | .double p => [p]
  | .string chars => chars.map fun c => (c.toNat : Int)
  | .bytes _ => []

/-- `compareTo`, by its sign. -/
def compareTo (a b : Value) : Except Fault Int :=
  if b = .null then .error .nullPointer
  else if a.comparable ≠ b.comparable then .error .classCast
  else .ok (comp a.place b.place)

variable {a b : Value} {c : JavaClass}

theorem compareTo_eq (ha : a.comparable = some c) (hb : b.comparable = some c) :
    a.compareTo b = .ok (comp a.place b.place) := by
  have hnull : b ≠ .null := by
    rintro rfl
    cases hb
  rw [compareTo, if_neg hnull, if_neg (not_not.mpr (ha.trans hb.symm))]

/-- Values of a class are told by their places. -/
theorem place_injective (ha : a.comparable = some c) (hb : b.comparable = some c)
    (h : a.place = b.place) : a = b := by
  cases a <;> cases hc : b <;> rw [hc] at hb h <;> simp only [comparable, reduceCtorEq] at ha hb <;>
    first
    | exact absurd (ha.trans hb.symm) (by decide)
    | skip
  all_goals simp only [place, List.cons.injEq, and_true] at h
  case byte.byte => exact congrArg _ (Int8.toInt_inj.mp h)
  case short.short => exact congrArg _ (Int16.toInt_inj.mp h)
  case integer.integer => exact congrArg _ (Int32.toInt_inj.mp h)
  case long.long => exact congrArg _ (Int64.toInt_inj.mp h)
  case float.float | double.double => exact congrArg _ h
  case string.string =>
    refine congrArg _ (List.map_injective_iff.mpr (fun x y hxy => ?_) h)
    exact UInt16.toNat_inj.mp (Int.ofNat.inj hxy)

end Value

/-- `values.get(i)`. -/
def getValue (values : List Value) (i : Nat) : Except Fault Value :=
  match values[i]? with
  | some v => .ok v
  | none => .error .indexOutOfBounds

def bothTests (a b : Except Fault Bool) : Except Fault Bool := do
  if ← a then b else return false

/-! ## §2. The values of the docserver. -/

/-- `getBytes("utf-8")` of the characters of a string. -/
def utf8 : List UInt16 → Bytes
  | [] => []
  | c :: cs =>
    let n := c.toNat
    if n < 0x80 then UInt8.ofNat n :: utf8 cs
    else if n < 0x800 then
      UInt8.ofNat (0xc0 + n / 64) :: UInt8.ofNat (0x80 + n % 64) :: utf8 cs
    else if n < 0xd800 || 0xdfff < n then
      UInt8.ofNat (0xe0 + n / 4096) :: UInt8.ofNat (0x80 + n / 64 % 64) ::
        UInt8.ofNat (0x80 + n % 64) :: utf8 cs
    else
      -- a pair of surrogates is one character; one that stands alone is replaced
      match cs with
      | d :: ds =>
        if n < 0xdc00 && 0xdc00 ≤ d.toNat && d.toNat ≤ 0xdfff then
          let m := 0x10000 + (n - 0xd800) * 1024 + (d.toNat - 0xdc00)
          UInt8.ofNat (0xf0 + m / 262144) :: UInt8.ofNat (0x80 + m / 4096 % 64) ::
            UInt8.ofNat (0x80 + m / 64 % 64) :: UInt8.ofNat (0x80 + m % 64) :: utf8 ds
        else 63 :: utf8 (d :: ds)
      | [] => [63]

/-- The bits of a float of `w + 1` bits, from its place in the order. -/
def floatBits (w : Nat) (place : Int) : Nat :=
  if place < 0 then 2 ^ w + (-place - 1).toNat else place.toNat

/-- A value as the docserver has it: `outPutData` and `read_dyn_value`.  The bytes of
an array are left out. -/
def Value.lowData : Value → LowData
  | .null => zeroData
  | .byte n => ⟨[], .tiny, leBytes 1 n.toBitVec.toNat⟩
  | .short n => ⟨[], .short, leBytes 2 n.toBitVec.toNat⟩
  | .integer n => ⟨[], .long, leBytes 4 n.toBitVec.toNat⟩
  | .long n => ⟨[], .longlong, leBytes 8 n.toBitVec.toNat⟩
  | .float p => ⟨[], .float, leBytes 4 (floatBits 31 p)⟩
  | .double p => ⟨[], .double, leBytes 8 (floatBits 63 p)⟩
  | .string chars => ⟨[], .string, utf8 chars⟩
  | .bytes _ => ⟨[], .bytes, []⟩

def JavaClass.integerType : JavaClass → Option FieldType
  | .byte => some .tiny
  | .short => some .short
  | .integer => some .long
  | .long => some .longlong
  | _ => none

/-! ## §3. Records. -/

/-- An object of a record: a value, or what an aggregate function carries. -/
inductive Cell where
  | value (v : Value)
  | set (elements : Finset Value)
  | list (elements : List Value)
  deriving DecidableEq

/-- `null`. -/
abbrev Cell.null : Cell := .value .null

/-- `Record`. -/
structure Record where
  docid : Int64
  data : List Cell
  deriving DecidableEq

/-- `data.get(i)`. -/
def getCell (data : List Cell) (i : Nat) : Except Fault Cell :=
  match data[i]? with
  | some cell => .ok cell
  | none => .error .indexOutOfBounds

theorem getCell_ok {data : List Cell} {i : Nat} {cell : Cell} (h : data[i]? = some cell) :
    getCell data i = .ok cell := by
  rw [getCell, h]

/-- The order in which the elements of a hash set or the entries of a hash map are
visited: some order. -/
structure HashOrder where
  visit : {β : Type} → List β → List β
  perm : ∀ {β : Type} (l : List β), (visit l).Perm l

end Mile.Merge
