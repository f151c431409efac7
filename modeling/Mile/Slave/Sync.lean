/-
  Mile.Slave.Sync
  ───────────────
  **A SLAVE PULLING THE MASTER'S BINLOG** (`execute/slave.c`, `slave_client_handler` in
  `docserver.cpp`).

  A session keeps a receive buffer and the previous record, and stores the position behind the
  last whole record.  Two traces stand beside the program's variables: `handled` and `applied`.
-/
import Mile.Binlog.Record

namespace Mile.Slave

open Lib Common Binlog

/-! ## §1. One record. -/

/-- `execute_binrecord`: the next `*prev` and the record handed to
`ApplyBinlog`, if any. -/
def executeBinrecord (prev : Option Bytes) (record : Bytes) :
    Option Bytes × Option Bytes :=
  match prev with
  | none => (some record, none)
  | some p =>
    if isConfirmRecord p then (some record, none)
    else if !isConfirmRecord record then
      -- previous record not confirmed
      (some record, none)
    else if recOpCode record = OperationCode.confirmFail.toByte.toNat then (none, none)
    else (none, some p)

structure SlaveState where
  prev : Option Bytes
  buf : Bytes
  curOffset : Nat
  syncPos : Nat
  handled : List Bytes
  applied : List Bytes
  deriving Repr, DecidableEq

/-- How the slave process can stop for good. -/
inductive HaltReason where
  /-- `ApplyBinlog` failed: `exit(EXIT_FAILURE)`. -/
  | applyFailed
  /-- `make_record_copy` got NULL from a pool smaller than the record. -/
  | copyFault
  /-- The response does not fit the receive buffer. -/
  | bufferOverrun
  /-- A record of length 0: the loop never advances. -/
  | spin
  deriving Repr, DecidableEq

structure Halt where
  reason : HaltReason
  st : SlaveState
  deriving Repr, DecidableEq

/-- The capacity of `buffer.data`. -/
def receiveBufferSize : Nat := maxBinlogDataPerPacket * 10

section Session

-- what `ApplyBinlog` returns for a record, given those applied before
variable (applyBinlog : List Bytes → Bytes → Int)

/-- Copy the record out of the buffer, execute it, exit when that fails. -/
def handleRecord (st : SlaveState) (record : Bytes) : Except Halt SlaveState :=
  -- `make_record_copy` gets no memory for more than a block of its pool
  if mbSize < recLen record then .error ⟨.copyFault, st⟩
  else
    let out := executeBinrecord st.prev record
    let st' := { st with
      prev := out.1
      handled := st.handled ++ [record]
      applied := st.applied ++ out.2.toList }
    match out.2 with
    | none => .ok st'
    | some p =>
      if applyBinlog st.applied p = ResultCode.success.value then .ok st'
      else .error ⟨.applyFailed, st'⟩

/-- `struct slave_sync_res`, with `len = data.length`. -/
structure SlaveSyncRes where
  returnCode : Int
  data : Bytes
  offset : Nat
  /-- What the writer has written behind `offset`. -/
  remainLength : UInt64 := 0
  deriving Repr

/-- One round of the loop of `sync_with_master`, from the response on. -/
def syncResponse (st : SlaveState) (res : SlaveSyncRes) : Except Halt SlaveState :=
  -- the loop sleeps and asks again
  if res.returnCode < 0 ∨ res.data.length = 0 then .ok st
  else if receiveBufferSize < st.buf.length + res.data.length then
    .error ⟨.bufferOverrun, st⟩
  else
    let buf := st.buf ++ res.data
    match drain 4 recLen (handleRecord applyBinlog) (fun s => ⟨.spin, s⟩)
        (buf.length + 1) st buf with
    | .error h => .error h
    | .ok (st', rest) =>
      .ok { st' with
        buf := rest
        curOffset := res.offset
        syncPos := res.offset - rest.length }

/-- `slave_client_handler` after a session ended: reconnect, read the stored
position, empty the buffer; `sync_with_master` starts without a previous
record. -/
def newSession (st : SlaveState) : SlaveState :=
  { st with prev := none, buf := [], curOffset := st.syncPos }

/-! ## §2. Runs. -/

/-- What happens to a slave next. -/
inductive SyncEvent where
  /-- The master answers with (at most) `n` bytes of its log. -/
  | response (n : Nat)
  /-- The master answers with an error code. -/
  | masterError
  /-- The session ends and the next one starts. -/
  | reconnect
  deriving Repr, DecidableEq

/-- The master's answer to a request for offset `off`: log bytes from there
on, never more than a packet holds. -/
def masterResponse (log : Bytes) (off n : Nat) : SlaveSyncRes :=
  let data := (log.drop off).take (min n maxBinlogDataPerPacket)
  { returnCode := 0, data := data, offset := off + data.length }

def syncStep (log : Bytes) (st : SlaveState) : SyncEvent → Except Halt SlaveState
  | .response n => syncResponse applyBinlog st (masterResponse log st.curOffset n)
  | .masterError =>
    syncResponse applyBinlog st
      { returnCode := ResultCode.errorBinlogFailed.value, data := [], offset := 0 }
  | .reconnect => .ok (newSession st)

def syncRun (log : Bytes) : SlaveState → List SyncEvent → Except Halt SlaveState
  | st, [] => .ok st
  | st, ev :: evs =>
    match syncStep applyBinlog log st ev with
    | .error h => .error h
    | .ok st' => syncRun log st' evs

end Session

def SlaveState.init : SlaveState :=
  { prev := none, buf := [], curOffset := 0, syncPos := 0, handled := [], applied := [] }

end Mile.Slave
