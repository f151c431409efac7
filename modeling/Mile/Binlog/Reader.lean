/-
  Mile.Binlog.Reader
  ──────────────────
  **READING THE BINLOG.**

  A reader stands at a byte offset of one log file and at its index item.  With a writer it shares
  the writer's index; without one it loads the index file itself.
-/
import Mile.Binlog.Writer

namespace Mile.Binlog

open Lib Common

/-- `BL_READER`; `index` is the one it loaded when it has no writer. -/
structure BlReader where
  fd : UInt32
  suffix : UInt32
  offset : UInt32
  indexItemPos : UInt32
  index : BinlogIndex
  deriving Repr, DecidableEq

/-- `reader->index`: the writer's when there is one. -/
def BlReader.theIndex (reader : BlReader) : Option BlWriter → BinlogIndex
  | some w => w.index
  | none => reader.index

/-- The conversion of a byte count to `int`. -/
def toInt (n : Nat) : Int := if n % 2 ^ 32 < 2 ^ 31 then n % 2 ^ 32 else (n % 2 ^ 32 : Int) - 2 ^ 32

/-- `while_pread`. -/
def whilePread (d : Disk) (fd : UInt32) (count offset : Nat) : Bytes :=
  (((d.log fd.toNat).getD []).drop offset).take count

/-- `binlog_get_position`. -/
def binlogGetPosition (writer : Option BlWriter) (reader : BlReader) : UInt64 :=
  let index := reader.theIndex writer
  (if index.last = noItem then 0 else (index.item reader.indexItemPos).absOffset)
    + UInt64.ofNat reader.offset.toNat

def caughtWriter (writer : Option BlWriter) (reader : BlReader) : Prop :=
  match writer with
  | some w => (w.absOffset - binlogGetPosition writer reader).toNat < 4
  | none => False

instance (writer : Option BlWriter) (reader : BlReader) :
    Decidable (caughtWriter writer reader) :=
  match writer with
  | some _ => inferInstanceAs (Decidable (_ < _))
  | none => isFalse id

/-- The reader moved on by `n` bytes in its file. -/
def BlReader.forward (reader : BlReader) (n : Nat) : BlReader :=
  { reader with offset := reader.offset + UInt32.ofNat n }

/-- The reader moved back by `n` bytes in its file. -/
def BlReader.goBack (reader : BlReader) (n : Nat) : BlReader :=
  { reader with offset := reader.offset - UInt32.ofNat n }

def BlReader.nextFile (reader : BlReader) : BlReader :=
  { reader with
    offset := 0
    suffix := reader.suffix + 1
    indexItemPos := reader.indexItemPos + 1
    fd := reader.suffix + 1 }

/-- `binlog_read_data`: return value, the bytes put into `data`, and the
reader. -/
def binlogReadData (d : Disk) (writer : Option BlWriter) (reader : BlReader) (dataLen : Nat) :
    Int × Bytes × BlReader :=
  let index := reader.theIndex writer
  if caughtWriter writer reader then (0, [], reader)
  else
    let data := whilePread d reader.fd dataLen reader.offset.toNat
    if toInt data.length < 0 then (-1, data, reader)
    else if data.length = dataLen then (toInt data.length, data, reader.forward data.length)
    else if reader.indexItemPos = index.last ∨ index.last = noItem then
      -- reach the end
      (toInt data.length, data, reader.forward data.length)
    else
      -- the next file may not be there yet
      match d.log (reader.suffix + 1).toNat with
      | none => (toInt data.length, data, reader.forward data.length)
      | some _ =>
        let reader := reader.nextFile
        let more := whilePread d reader.fd (dataLen - data.length) reader.offset.toNat
        if toInt more.length < 0 then (-1, data ++ more, reader)
        else (toInt (data.length + more.length), data ++ more, reader.forward more.length)

/-- What `binlog_read_record` comes to. -/
inductive ReadResult where
  /-- -1. -/
  | error
  /-- 0, the end of the log. -/
  | eof
  /-- 1, with the record's bytes. -/
  | record (bytes : Bytes)
  /-- The record does not fit the pool (`mem_pool_malloc` returned NULL), or
  is shorter than its own length field. -/
  | fault
  deriving Repr, DecidableEq

/-- `binlog_read_record` with a memory pool of `mem` bytes. -/
def binlogReadRecord (d : Disk) (writer : Option BlWriter) (mem : Nat) (reader : BlReader) :
    ReadResult × BlReader :=
  let head := binlogReadData d writer reader 4
  -- the length field first; a partial one is given back
  if head.1 < 0 then (.error, head.2.2)
  else if head.1 ≠ 4 then (.eof, head.2.2.goBack head.1.toNat)
  else
    let recordLen := leNat head.2.1
    if mem < recordLen ∨ recordLen < 4 then (.fault, head.2.2)
    else
      let body := binlogReadData d writer head.2.2 (recordLen - 4)
      if body.1 < 0 then (.error, body.2.2)
      else if body.1 ≠ (recordLen - 4 : Nat) then (.eof, body.2.2.goBack (4 + body.1.toNat))
      else (.record (head.2.1 ++ body.2.1), body.2.2)

def readerIndex (d : Disk) : Option BlWriter → Option BinlogIndex
  | some w => some w.index
  | none => loadIndexFile d.index

/-- The item found by a scan of the index from its start: the last one
before the first that does not satisfy `p`, but never before item 0. -/
def scanItems (index : BinlogIndex) (p : FileItem → Bool) : Nat :=
  (index.items.takeWhile p).length - 1

/-- The reader at byte `offset` of the file of item `i`. -/
def readerAtItem (index : BinlogIndex) (i : Nat) (offset : UInt32) : BlReader :=
  let item := index.item (UInt32.ofNat i)
  { fd := item.suffix, suffix := item.suffix, offset := offset,
    indexItemPos := UInt32.ofNat i, index := index }

/-- `binlog_reader_init_byoffset`. -/
def binlogReaderInitByoffset (d : Disk) (absoluteOffset : UInt64) (writer : Option BlWriter) :
    Option (Disk × BlReader) :=
  (readerIndex d writer).map fun index =>
    let reader :=
      if index.last = noItem then
        { fd := 0, suffix := 0, offset := absoluteOffset.toUInt32, indexItemPos := 0,
          index := index }
      else
        let i := scanItems index (fun it => it.absOffset ≤ absoluteOffset)
        readerAtItem index i
          (absoluteOffset - (index.item (UInt32.ofNat i)).absOffset).toUInt32
    (d.openCreate reader.fd.toNat, reader)

/-- What `seek_to_time` comes to. -/
inductive SeekResult where
  | failed
  | at (reader : BlReader)
  /-- A record did not fit the 10 MB pool. -/
  | fault
  | outOfFuel
  deriving Repr, DecidableEq

/-- The loop of `seek_to_time`, over the function that reads a record. -/
def seekLoop (read : BlReader → ReadResult × BlReader) (time : UInt32) :
    Nat → BlReader → SeekResult
  | 0, _ => .outOfFuel
  | fuel + 1, reader =>
    match read reader with
    | (.error, _) => .failed
    | (.fault, _) => .fault
    | (.eof, reader) => .at reader
    | (.record record, reader) =>
      if time.toNat ≤ recTime record then
        -- go back one record
        .at (reader.goBack (recLen record))
      else seekLoop read time fuel reader

/-- `seek_to_time`: read on to the first record that is not older than
`time`. -/
def seekToTime (d : Disk) (time : UInt32) (fuel : Nat) (reader : BlReader) : SeekResult :=
  seekLoop (binlogReadRecord d none (mbSize * 10)) time fuel reader

/-- `binlog_reader_init_bytime`: the file by the times in the index, the
record by `seek_to_time`. -/
def binlogReaderInitBytime (d : Disk) (time : UInt32) (fuel : Nat) : Disk × SeekResult :=
  match readerIndex d none with
  | none => (d, .failed)
  | some index =>
    let reader :=
      if index.last = noItem then
        { fd := 0, suffix := 0, offset := 0, indexItemPos := 0, index := index }
      else readerAtItem index (scanItems index (fun it => it.time < time)) 0
    let d := d.openCreate reader.fd.toNat
    (d, seekToTime d time fuel reader)

/-- `binlog_is_read_all`, fstat succeeding. -/
def binlogIsReadAll (d : Disk) (reader : BlReader) : Bool :=
  UInt32.ofNat (d.size reader.fd.toNat) = reader.offset

/-- Repeated `binlog_read_record` returns exactly the records `recs`, and
then 0. -/
def Returns (d : Disk) (writer : Option BlWriter) (mem : Nat) : BlReader → List Bytes → Prop
  | reader, [] => (binlogReadRecord d writer mem reader).1 = .eof
  | reader, rec :: recs =>
    (binlogReadRecord d writer mem reader).1 = .record rec ∧
      Returns d writer mem (binlogReadRecord d writer mem reader).2 recs

instance decidableReturns (d : Disk) (writer : Option BlWriter) (mem : Nat) :
    ∀ reader recs, Decidable (Returns d writer mem reader recs)
  | _, [] => inferInstanceAs (Decidable (_ = _))
  | reader, _ :: recs =>
    have := decidableReturns d writer mem (binlogReadRecord d writer mem reader).2 recs
    inferInstanceAs (Decidable (_ ∧ _))

end Mile.Binlog
