/-
  Mile.Binlog.Writer
  ──────────────────
  **WRITING THE BINLOG.**

  What the kernel answers to the system calls of a write is explicit (`WriteEnv`): a write(2) may
  be short, be interrupted, or fail.  `while_write` handles EINTR by adding the return value -1 to
  `done`.
-/
import Mile.Binlog.Index
import Mile.Binlog.Record
import Mile.Lib.Run

namespace Mile.Binlog

open Lib

/-! ## §1. Disk and system calls. -/

/-- The binlog directory: log files by suffix, and the index file (one that
does not exist reads as empty and is created when it is opened). -/
structure Disk where
  log : Nat → Option Bytes
  index : List Char

def Disk.empty : Disk := { log := fun _ => none, index := [] }

def Disk.size (d : Disk) (suffix : Nat) : Nat := ((d.log suffix).getD []).length

/-- `open` of a log file with `O_CREAT`. -/
def Disk.openCreate (d : Disk) (suffix : Nat) : Disk :=
  { d with log := Function.update d.log suffix (some ((d.log suffix).getD [])) }

def Disk.append (d : Disk) (suffix : Nat) (bytes : Bytes) : Disk :=
  { d with log := Function.update d.log suffix (some ((d.log suffix).getD [] ++ bytes)) }

inductive WriteOutcome where
  /-- It wrote `n` elements, or all that was left if that is less. -/
  | wrote (n : Nat)
  | eintr
  | fail
  deriving Repr, DecidableEq

/-- The kernel during one `binlog_write_record`.  When a list of write
answers is used up, the next write succeeds in full. -/
structure WriteEnv where
  /-- `time(NULL)`. -/
  now : UInt32
  fsync : Bool
  indexOpen : Bool
  indexWrites : List WriteOutcome
  logOpen : Bool
  logWrites : List WriteOutcome
  deriving Repr, DecidableEq

/-- The conversion of a `size_t` to `ssize_t`. -/
def toSsize (n : Nat) : Int := if n < 2 ^ 63 then n else (n : Int) - 2 ^ 64

/-- `while_write` from `done` on: its return value and what the file
got. -/
def whileWrite {α : Type*} (buf : List α) : List WriteOutcome → Nat → Int × List α
  | [], done =>
    if done < buf.length then (toSsize buf.length, buf.drop done) else (toSsize done, [])
  | out :: outs, done =>
    if done < buf.length then
      match out with
      | .wrote n =>
        let n := min n (buf.length - done)
        let rest := whileWrite buf outs (done + n)
        (rest.1, (buf.drop done).take n ++ rest.2)
      | .eintr =>
        -- `done += n` with `n = -1`
        whileWrite buf outs ((done + (2 ^ 64 - 1)) % 2 ^ 64)
      | .fail => (-1, [])
    else (toSsize done, [])

/-! ## §2. The writer. -/

/-- `BL_WRITER`; `fd` is known by the suffix of the file behind it. -/
structure BlWriter where
  maxSize : UInt32
  fd : UInt32
  syncImmediately : Bool
  absOffset : UInt64
  index : BinlogIndex
  deriving Repr, DecidableEq

/-- `add_file_item`: the item enters the array also when the index file could
not be written. -/
def addFileItem (env : WriteEnv) (d : Disk) (index : BinlogIndex) (item : FileItem) :
    Int × Disk × BinlogIndex :=
  if env.indexOpen then
    let out := whileWrite (itemLine item) env.indexWrites 0
    (if out.1 < 0 then -1 else 0, { d with index := d.index ++ out.2 }, addItemArray index item)
  else (-1, d, index)

def nextItem (w : BlWriter) (time : UInt32) : FileItem :=
  if w.index.last = noItem then { time := time, absOffset := 0, suffix := 0 }
  else { time := time, absOffset := w.absOffset, suffix := (w.index.item w.index.last).suffix + 1 }

/-- `writer_goto_next`. -/
def writerGotoNext (env : WriteEnv) (d : Disk) (w : BlWriter) (time : UInt32) :
    Int × Disk × BlWriter :=
  let isFirst := w.index.last = noItem
  -- the file that is left is synced, unless every record was
  if ¬ isFirst ∧ w.syncImmediately = false ∧ env.fsync = false then (-1, d, w)
  else
    let item := nextItem w time
    let added := addFileItem env d w.index item
    let w' := { w with index := added.2.2 }
    -- the array has the item already, whatever became of its line
    if added.1 ≠ 0 then (-1, added.2.1, w')
    -- file 0 was opened by `binlog_writer_init`
    else if isFirst then (0, added.2.1, w')
    else if env.logOpen then
      (0, added.2.1.openCreate item.suffix.toNat, { w' with fd := item.suffix })
    else (-1, added.2.1, w')

/-- The test of `binlog_write_record` for a new file. -/
abbrev needsNext (w : BlWriter) (len : Nat) : Prop :=
  w.index.last = noItem ∨
    w.maxSize.toNat <
      (UInt64.ofNat len + w.absOffset - (w.index.item w.index.last).absOffset).toNat

def BinlogRecord.stamp (r : BinlogRecord) (now : UInt32) : BinlogRecord :=
  { r with time := now }

/-- `binlog_write_record`, of a record that is not NULL. -/
def binlogWriteRecord (env : WriteEnv) (d : Disk) (w : BlWriter) (r : BinlogRecord) :
    Int × Disk × BlWriter :=
  let record := r.stamp env.now
  let next := if needsNext w record.len then writerGotoNext env d w env.now else (0, d, w)
  if next.1 ≠ 0 then (-1, next.2)
  else
    let out := whileWrite record.toBytes env.logWrites 0
    -- what got out before a failure stays in the file
    let d' := next.2.1.append next.2.2.fd.toNat out.2
    if out.1 < 0 then (-1, d', next.2.2)
    else (0, d', { next.2.2 with absOffset := next.2.2.absOffset + UInt64.ofNat record.len })

/-- `binlog_writer_init`, all its system calls succeeding. -/
def binlogWriterInit (d : Disk) (maxSize : UInt32) : Option (Disk × BlWriter) :=
  (loadIndexFile d.index).map fun index =>
    let item := if index.last = noItem then default else index.item index.last
    let d' := d.openCreate item.suffix.toNat
    -- the file's size, plus the absolute offset of its first record
    (d', { maxSize := maxSize, fd := item.suffix, syncImmediately := false,
           absOffset := UInt64.ofNat (d'.size item.suffix.toNat) + item.absOffset,
           index := index })

/-! ## §3. Runs. -/

/-- What is done with a writer. -/
inductive LogOp where
  | write (r : BinlogRecord) (env : WriteEnv)
  /-- Close it and open it again; `sync_immediately` is set by the caller. -/
  | reopen (maxSize : UInt32) (sync : Bool)

/-- Directory, writer, and the records whose call returned 0. -/
structure LogState where
  disk : Disk
  writer : BlWriter
  written : List BinlogRecord

/-- Open a writer on `d`. -/
def logOpen (d : Disk) (written : List BinlogRecord) (maxSize : UInt32) (sync : Bool) :
    Option LogState :=
  (binlogWriterInit d maxSize).map fun out =>
    { disk := out.1, writer := { out.2 with syncImmediately := sync }, written := written }

def logWrite (s : LogState) (r : BinlogRecord) (env : WriteEnv) : LogState :=
  let out := binlogWriteRecord env s.disk s.writer r
  { disk := out.2.1, writer := out.2.2,
    written := if out.1 = 0 then s.written ++ [r.stamp env.now] else s.written }

def logStep (s : LogState) : LogOp → Option LogState
  | .write r env => some (logWrite s r env)
  | .reopen maxSize sync => logOpen s.disk s.written maxSize sync

def logRun (maxSize : UInt32) (sync : Bool) (ops : List LogOp) : Option LogState :=
  (logOpen Disk.empty [] maxSize sync).bind fun s => run logStep s ops

end Mile.Binlog
