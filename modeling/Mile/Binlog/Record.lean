/-
  Mile.Binlog.Record
  ──────────────────
  **BINLOG RECORDS AS BYTES** (`storage/binlog.h`).

  `struct binlog_record` is packed: a 16-byte header (`len`, `time`, `sid`, `docid`, `flag`,
  `op_code`) and the data.
-/
import Mile.Lib.Framing
import Mile.Lib.Confirm
import Mile.Common.Def

namespace Mile.Binlog

open Lib Common List

/-! ## §1. Operation codes. -/

/-- `enum binlog_record_operation_code`. -/
inductive OperationCode where
  | confirmOk
  | confirmFail
  | insert
  | update
  | delete
  | index
  | dindex
  | load
  | unload
  | compress
  | ldbDelete
  | ldbUpdate
  deriving Repr, DecidableEq

def OperationCode.toByte : OperationCode → UInt8
  | .confirmOk => 0
  | .confirmFail => 1
  | .insert => 2
  | .update => 3
  | .delete => 4
  | .index => 5
  | .dindex => 6
  | .load => 7
  | .unload => 8
  | .compress => 9
  | .ldbDelete => 10
  | .ldbUpdate => 11

def OperationCode.ofByte? (b : UInt8) : Option OperationCode :=
  [confirmOk, confirmFail, insert, update, delete, index, dindex, load, unload, compress,
    ldbDelete, ldbUpdate].find? (fun c => c.toByte == b)

@[simp] theorem OperationCode.ofByte?_toByte (c : OperationCode) :
    OperationCode.ofByte? c.toByte = some c := by
  cases c <;> rfl

/-! ## §2. Reading the header of a raw record. -/

/-- `sizeof(struct binlog_record)`. -/
def headerSize : Nat := 16

/-- `record->len`. -/
def recLen (b : Bytes) : Nat := leAt b 0 4

/-- `record->time`. -/
def recTime (b : Bytes) : Nat := leAt b 4 4

/-- `record->sid`. -/
def recSid (b : Bytes) : Nat := leAt b 8 2

/-- `record->docid`. -/
def recDocid (b : Bytes) : Nat := leAt b 10 4

/-- `record->op_code`. -/
def recOpCode (b : Bytes) : Nat := leAt b 15 1

/-- `record->data`. -/
def recData (b : Bytes) : Bytes := b.drop headerSize

/-- `IS_CONFIRM_RECORD`. -/
def isConfirmRecord (b : Bytes) : Bool :=
  recOpCode b == OperationCode.confirmOk.toByte.toNat
    || recOpCode b == OperationCode.confirmFail.toByte.toNat

/-- What a raw record is for: an operation, or the outcome of the one before
it. -/
def recRole (b : Bytes) : Role :=
  if recOpCode b = OperationCode.confirmOk.toByte.toNat then .ok
  else if recOpCode b = OperationCode.confirmFail.toByte.toNat then .fail
  else .op

theorem isConfirmRecord_iff (b : Bytes) : isConfirmRecord b = true ↔ recRole b ≠ .op := by
  unfold isConfirmRecord recRole
  split
  · rename_i h; simp [h]
  · split
    · rename_i h; simp [h]
    · rename_i h h'; simp [h, h']

/-- A step that pairs records with their confirmations. -/
theorem pairing_of_confirm {step : Option Bytes → Bytes → Option Bytes × Option Bytes}
    (hnone : ∀ r, step none r = (some r, none))
    (hconfirm : ∀ p r, isConfirmRecord p = true → step (some p) r = (some r, none))
    (hop : ∀ p r, isConfirmRecord p = false → isConfirmRecord r = false →
      step (some p) r = (some r, none))
    (hfail : ∀ p r, isConfirmRecord p = false → isConfirmRecord r = true →
      recOpCode r = OperationCode.confirmFail.toByte.toNat →
        step (some p) r = (none, none) ∨ step (some p) r = (some r, none))
    (hok : ∀ p r, isConfirmRecord p = false → isConfirmRecord r = true →
      recOpCode r ≠ OperationCode.confirmFail.toByte.toNat → step (some p) r = (none, some p)) :
    Pairing recRole step where
  pair := by
    intro a r ha hr
    have hna : isConfirmRecord a = false := by
      rw [Bool.eq_false_iff, Ne, isConfirmRecord_iff, ha]; simp
    have hcr : isConfirmRecord r = true := by rw [isConfirmRecord_iff, hr]; simp
    apply hok a r hna hcr
    intro hf
    -- a CONFIRM_FAIL does not have the role of a CONFIRM_OK
    simp [recRole, hf, OperationCode.toByte] at hr
  other := by
    intro p r hp
    cases p with
    | none => exact ⟨by rw [hnone], .inl (by rw [hnone])⟩
    | some a =>
      by_cases ha : isConfirmRecord a = true
      · rw [hconfirm a r ha]
        exact ⟨rfl, .inl rfl⟩
      · have hop' : recRole a = .op := by
          by_contra hne
          exact ha ((isConfirmRecord_iff a).mpr hne)
        rw [Bool.not_eq_true] at ha
        by_cases hr : isConfirmRecord r = true
        · have hrop : recRole r ≠ .op := (isConfirmRecord_iff r).mp hr
          have hrok : recRole r ≠ .ok := hp a rfl hop'
          -- a confirm record that is not a CONFIRM_OK is a CONFIRM_FAIL
          have hrfail : recOpCode r = OperationCode.confirmFail.toByte.toNat := by
            by_contra hnf
            by_cases hk : recOpCode r = OperationCode.confirmOk.toByte.toNat
            · exact hrok (by rw [recRole, if_pos hk])
            · exact hrop (by rw [recRole, if_neg hk, if_neg hnf])
          rcases hfail a r ha hr hrfail with h | h
          · rw [h]
            exact ⟨rfl, .inr ⟨rfl, hrop⟩⟩
          · rw [h]
            exact ⟨rfl, .inl rfl⟩
        · rw [Bool.not_eq_true] at hr
          rw [hop a r ha hr]
          exact ⟨rfl, .inl rfl⟩

/-! ## §3. Records a writer builds. -/

/-- A record with its header fields and data; the total length fits the
32-bit `len` field. -/
structure BinlogRecord where
  time : UInt32
  sid : UInt16
  docid : UInt32
  flag : UInt8
  opCode : UInt8
  data : Bytes
  len_lt : headerSize + data.length < 2 ^ 32
  deriving DecidableEq

/-- `record->len`. -/
def BinlogRecord.len (r : BinlogRecord) : Nat := headerSize + r.data.length

def BinlogRecord.toBytes (r : BinlogRecord) : Bytes :=
  leBytes 4 r.len ++ (leBytes 4 r.time.toNat ++ (leBytes 2 r.sid.toNat ++
    (leBytes 4 r.docid.toNat ++ (leBytes 1 r.flag.toNat ++
      (leBytes 1 r.opCode.toNat ++ r.data)))))

/-- `IS_CONFIRM_RECORD` and the two confirm codes, on a built record. -/
def BinlogRecord.role (r : BinlogRecord) : Role :=
  if r.opCode = OperationCode.confirmOk.toByte then .ok
  else if r.opCode = OperationCode.confirmFail.toByte then .fail
  else .op

/-- A record without data, as `binlog_confirm` makes one. -/
def bareRecord (op : OperationCode) : BinlogRecord :=
  { time := 0, sid := 0, docid := 0, flag := 0, opCode := op.toByte, data := [],
    len_lt := by decide }

theorem BinlogRecord.len_bounds (r : BinlogRecord) : headerSize ≤ r.len ∧ r.len < 2 ^ 32 :=
  ⟨Nat.le_add_right _ _, r.len_lt⟩

@[simp] theorem BinlogRecord.toBytes_length (r : BinlogRecord) :
    r.toBytes.length = r.len := by
  simp [toBytes, len, headerSize]
  omega

theorem BinlogRecord.toBytes_ne_nil (r : BinlogRecord) : r.toBytes ≠ [] := by
  intro h
  have := congrArg List.length h
  simp [len, headerSize] at this

/-! ### The header fields read back what was written. -/

section Fields

variable (r : BinlogRecord)

theorem recLen_toBytes : recLen r.toBytes = r.len := leAt_append [] _ 4 r.len rfl r.len_bounds.2

theorem recTime_toBytes : recTime r.toBytes = r.time.toNat :=
  leAt_append (leBytes 4 r.len) _ 4 r.time.toNat (by simp) r.time.toNat_lt

theorem recOpCode_toBytes : recOpCode r.toBytes = r.opCode.toNat := by
  have h := leAt_append (leBytes 4 r.len ++ (leBytes 4 r.time.toNat ++
    (leBytes 2 r.sid.toNat ++ (leBytes 4 r.docid.toNat ++ leBytes 1 r.flag.toNat))))
    r.data 1 r.opCode.toNat (show 15 = _ by simp) r.opCode.toNat_lt
  simp only [append_assoc] at h
  exact h

end Fields

theorem recRole_toBytes (r : BinlogRecord) : recRole r.toBytes = r.role := by
  unfold recRole BinlogRecord.role
  rw [recOpCode_toBytes]
  simp only [UInt8.toNat_inj]

/-- The bytes of a record: a whole header whose length field tells the number
of bytes. -/
abbrev IsRecord (f : Bytes) : Prop :=
  headerSize ≤ f.length ∧ recLen f = f.length

theorem IsRecord.ne_nil {f : Bytes} (h : IsRecord f) : f ≠ [] := by
  rintro rfl
  exact absurd h.1 (by decide)

/-- **A record is a frame**: its length stands in its first four bytes. -/
theorem IsRecord.isFrame {f : Bytes} (h : IsRecord f) : IsFrame 4 recLen f := by
  obtain ⟨hlen, hrec⟩ := h
  rw [headerSize] at hlen
  refine ⟨by omega, ?_⟩
  intro s hs
  -- the length is read from the first four bytes, whatever follows them
  have h4 : (f.take 4).length = 4 := by
    rw [length_take]
    omega
  have h1 : recLen s = recLen (f.take 4) := leAt_eq_of_prefix (by omega) hs
  have h2 : recLen f = recLen (f.take 4) := leAt_eq_of_prefix (by omega) ( take_prefix _ _)
  rw [h1, ← h2, hrec]

theorem isRecord_toBytes (r : BinlogRecord) : IsRecord r.toBytes :=
  ⟨r.toBytes_length ▸ r.len_bounds.1, by rw [recLen_toBytes, r.toBytes_length]⟩

theorem isFrame_toBytes (r : BinlogRecord) : IsFrame 4 recLen r.toBytes :=
  (isRecord_toBytes r).isFrame

/-! ## §4. Lists of records. -/

def image (recs : List BinlogRecord) : Bytes := (recs.map BinlogRecord.toBytes).flatten

theorem image_append (xs ys : List BinlogRecord) : image (xs ++ ys) = image xs ++ image ys := by
  simp [image]

@[simp] theorem image_nil : image [] = [] := rfl

theorem image_cons (r : BinlogRecord) (recs : List BinlogRecord) :
    image (r :: recs) = r.toBytes ++ image recs := by
  simp [image]

theorem image_around (xs ys : List BinlogRecord) (y : BinlogRecord) :
    image (xs ++ y :: ys) = image xs ++ (y.toBytes ++ image ys) ∧
      (image (xs ++ y :: ys)).length = (image xs).length + (y.len + (image ys).length) := by
  have h : image (xs ++ y :: ys) = image xs ++ (y.toBytes ++ image ys) := by
    rw [image_append, image_cons]
  refine ⟨h, ?_⟩
  rw [h, length_append, length_append, BinlogRecord.toBytes_length]

theorem image_concat_length (xs : List BinlogRecord) (y : BinlogRecord) :
    (image (xs ++ [y])).length = (image xs).length + y.len :=
  (image_around xs [] y).2

theorem image_length_pos {recs : List BinlogRecord} (h : recs ≠ []) :
    headerSize ≤ (image recs).length := by
  cases recs with
  | nil => exact absurd rfl h
  | cons r recs =>
    rw [image_cons, length_append, BinlogRecord.toBytes_length]
    exact Nat.le_add_right_of_le r.len_bounds.1

end Mile.Binlog
