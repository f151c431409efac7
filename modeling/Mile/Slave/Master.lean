/-
  Mile.Slave.Master
  ─────────────────
  **A MASTER SERVING A SLAVE'S REQUEST** (`execute_slave_sync` in `storage/binlog.c`).

  A request for an offset the session's reader does not stand at opens a new one.  Not served well
  (`Served`) is an offset 2 ^ 32 or more behind the start of the newest file, and one behind the
  end of a file that gets a successor.
-/
import Mile.Slave.Sync
import Mile.Binlog.RawLog

namespace Mile.Slave

open Lib Common Binlog List

/-! ## §1. The code. -/

/-- `binlog_remain_data_len`, stored in an unsigned field. -/
def binlogRemainDataLen (writer : Option BlWriter) (reader : BlReader) : UInt64 :=
  match writer with
  | none => -1
  | some w => w.absOffset - binlogGetPosition writer reader

/-- What a request comes to: the reader of the session and the response, or
the failed assertion. -/
inductive SyncOutcome where
  | replied (reader : Option BlReader) (res : SlaveSyncRes)
  | assertFailed
  deriving Repr

/-- The reader of the session if it stands at the requested offset, otherwise
a new one. -/
def sessionReader (d : Disk) (writer : Option BlWriter) (blReader : Option BlReader)
    (offset : UInt64) : Option (Disk × BlReader) :=
  match blReader with
  | some reader =>
    if binlogGetPosition writer reader = offset then some (d, reader)
    else binlogReaderInitByoffset d offset writer
  | none => binlogReaderInitByoffset d offset writer

def failedRes : SlaveSyncRes :=
  { returnCode := ResultCode.errorBinlogFailed.value, data := [], offset := 0 }

/-- `execute_slave_sync` from `binlog_read_data` on. -/
def replyFrom (d : Disk) (writer : Option BlWriter) (reader : BlReader) : SyncOutcome :=
  let read := binlogReadData d writer reader maxBinlogDataPerPacket
  if read.1 < 0 then .replied (some read.2.2) failedRes
  else
    .replied (some read.2.2)
      { returnCode := 0
        data := read.2.1
        offset := (binlogGetPosition writer read.2.2).toNat
        remainLength := binlogRemainDataLen writer read.2.2 }

/-- `execute_slave_sync`. -/
def executeSlaveSync (d : Disk) (writer : Option BlWriter) (blReader : Option BlReader)
    (offset : UInt64) : SyncOutcome :=
  match sessionReader d writer blReader offset with
  | none => .replied none failedRes
  | some (d, reader) =>
    if binlogGetPosition writer reader ≠ offset then .assertFailed
    else replyFrom d writer reader

/-! ## §2. What a slave may rely on. -/

/-- The response is an error, or holds the log from `offset` on and the offset
behind its bytes. -/
def Served (log : Bytes) (offset : Nat) : SyncOutcome → Prop
  | .assertFailed => False
  | .replied _ res => res.returnCode < 0 ∨
      res.returnCode = 0 ∧ res.data = (log.drop offset).take res.data.length ∧
        res.offset = offset + res.data.length

/-- The offset fits the 32 bits a reader has for it, in the newest file. -/
def Openable (files : List Bytes) (offset : UInt64) : Prop :=
  offset.toNat < files.dropLast.flatten.length + 2 ^ 32

def InFile (files : List Bytes) (reader : BlReader) : Prop :=
  reader.fd.toNat + 1 = files.length ∨
    reader.offset.toNat ≤ (files.getD reader.fd.toNat []).length

/-- The requests a master serves well: a reader that stays in use is in its
file (or reads nothing), and a new one can be opened at the offset. -/
def Servable (writer : Option BlWriter) (files : List Bytes) (blReader : Option BlReader)
    (offset : UInt64) : Prop :=
  match blReader with
  | some reader =>
    if binlogGetPosition writer reader = offset then
      InFile files reader ∨ caughtWriter writer reader
    else Openable files offset
  | none => Openable files offset

section Serve

variable {d : Disk} {items : List FileItem} {files : List Bytes} {writer : Option BlWriter}
  {reader : BlReader} {i o : Nat} {g : Bytes}

theorem take_of_take_append (xs ys : Bytes) (n : Nat) :
    (xs ++ ys).take (xs.take n).length = xs.take n := by
  have hle : (xs.take n).length ≤ xs.length := by
    rw [length_take]
    exact Nat.min_le_right _ _
  rw [take_append_of_le_length hle, length_take, ← take_take, take_length]

/-- When the reply is the log from the reader on. -/
theorem replyFrom_served (h : RawLog d items files) (hat : AtByte reader writer items i o)
    (hi : files[i]? = some g) :
    Served files.flatten ((files.take i).flatten.length + o) (replyFrom d writer reader) ↔
      (i + 1 = files.length ∨ o ≤ g.length) ∨ caughtWriter writer reader := by
  have hilt : i < files.length := (List.getElem?_eq_some_iff.mp hi).1
  have hmax : maxBinlogDataPerPacket < 2 ^ 31 := by decide
  have hread := h.readData hat hi (hmax.trans (by decide))
  unfold replyFrom
  generalize binlogReadData d writer reader maxBinlogDataPerPacket = read at hread
  cases hread with
  | refused hbig _ => omega
  | caught hc =>
    -- nothing is read, and the position is the one asked for
    simp only [Int.lt_irrefl, if_false, hc, or_true, iff_true]
    exact .inr ⟨rfl, by simp, h.position hat hilt⟩
  | here hc hfit hat' =>
    have hnonneg : ¬ (((g.drop o).take maxBinlogDataPerPacket).length : Int) < 0 := by omega
    simp only [hnonneg, if_false]
    constructor
    · intro _
      left
      rcases hfit with hfull | hnew
      · have hpos : 0 < maxBinlogDataPerPacket := by decide
        rw [length_drop] at hfull
        exact .inr (by omega)
      · exact .inl hnew
    · intro _
      refine .inr ⟨rfl, ?_, ?_⟩
      · by_cases ho : o ≤ g.length
        · rw [flatten_drop_at hi ho, take_of_take_append]
        · -- behind the end of the newest file
          simp [drop_of_length_le (Nat.le_of_not_le ho)]
      · rw [h.position hat' hilt, Nat.add_assoc]
  | @across reader' next hc hrest hnext hat' =>
    have hnextlt : i + 1 < files.length := (List.getElem?_eq_some_iff.mp hnext).1
    have hnonneg : ∀ k : Nat, ¬ (k : Int) < 0 := by omega
    have hposition : (binlogGetPosition writer reader').toNat
        = (files.take i).flatten.length + g.length
          + (next.take (maxBinlogDataPerPacket - (g.drop o).length)).length := by
      rw [h.position hat' hnextlt, flatten_take_succ hi]
    simp only [hnonneg, if_false]
    constructor
    · rintro (herr | ⟨_, _, hoff⟩)
      · exact absurd herr (Int.lt_irrefl 0)
      · -- the offset behind the bytes is counted from the start of the next file
        left
        right
        dsimp only at hoff
        rw [hposition, length_append] at hoff
        have hlen : (g.drop o).length = g.length - o := length_drop
        omega
    · rintro ((hnew | ho) | hcaught)
      · omega
      · refine .inr ⟨rfl, ?_, ?_⟩
        · dsimp only
          rw [flatten_drop_at hi ho, drop_eq_getElem_cons hnextlt, flatten_cons,
            (List.getElem?_eq_some_iff.mp hnext).2, length_append,
            take_length_add_append, take_of_take_append]
        · dsimp only
          rw [hposition, length_append]
          have hlen : (g.drop o).length = g.length - o := length_drop
          omega
      · exact absurd hcaught hc

/-! ## §3. Every request. -/

/-- A new reader serves the offsets it can be opened at. -/
theorem newReader_served (h : RawLog d items files)
    (hindex : readerIndex d writer = some ⟨items⟩) (offset : UInt64) :
    Served files.flatten offset.toNat
      (match binlogReaderInitByoffset d offset writer with
        | none => .replied none failedRes
        | some (d, reader) =>
          if binlogGetPosition writer reader ≠ offset then .assertFailed
          else replyFrom d writer reader) ↔ Openable files offset := by
  obtain ⟨reader, i, hinit, hi, hlow, hhigh, hat⟩ := h.readerInit hindex offset
  rw [hinit]
  dsimp only
  have hposition := h.position hat hi
  have hget : files[i]? = some files[i] := getElem?_eq_getElem hi
  have hsize := h.size_lt _ (mem_of_getElem? hget)
  -- the newest file is the last one
  have hlast : i + 1 = files.length →
      files.dropLast.flatten.length = (files.take i).flatten.length := by
    intro hnew
    rw [dropLast_eq_take, ← hnew, Nat.add_sub_cancel]
  have hopen : Openable files offset ↔
      offset.toNat - (files.take i).flatten.length < 2 ^ 32 := by
    unfold Openable
    by_cases hnew : i + 1 = files.length
    · rw [hlast hnew]
      omega
    · have hbefore := hhigh (by omega)
      rw [flatten_take_succ hget] at hbefore
      have hle : (files.take (i + 1)).flatten.length ≤ files.dropLast.flatten.length := by
        rw [dropLast_eq_take]
        have hsplit : files.take (files.length - 1)
            = files.take (i + 1) ++ (files.drop (i + 1)).take (files.length - 1 - (i + 1)) := by
          rw [← take_add]
          congr 1
          omega
        rw [hsplit, List.flatten_append, length_append]
        exact Nat.le_add_right _ _
      rw [flatten_take_succ hget] at hle
      omega
  rw [hopen]
  by_cases hfits : offset.toNat - (files.take i).flatten.length < 2 ^ 32
  · rw [Nat.mod_eq_of_lt hfits] at hat hposition
    have hat_offset : (files.take i).flatten.length
        + (offset.toNat - (files.take i).flatten.length) = offset.toNat := by omega
    rw [hat_offset] at hposition
    rw [if_neg (not_not.mpr (UInt64.toNat_inj.mp hposition))]
    have hserved := replyFrom_served h hat hget
    rw [hat_offset] at hserved
    rw [hserved]
    simp only [hfits, iff_true]
    left
    by_cases hnew : i + 1 = files.length
    · exact .inl hnew
    · have hbefore := hhigh (by omega)
      rw [flatten_take_succ hget] at hbefore
      exact .inr (by omega)
  · -- the high bits of the offset are lost
    have hne : binlogGetPosition writer reader ≠ offset := by
      intro heq
      rw [heq] at hposition
      omega
    rw [if_pos hne]
    simp only [Served, hfits]

/-- **The requests a master serves well**, over every log whose index is
right about its files, every reader of the session and every 64-bit offset:
exactly those at which no reader is, or gets, behind the end of a file it
cannot stand behind. -/
theorem executeSlaveSync_serves (h : RawLog d items files)
    (hindex : readerIndex d writer = some ⟨items⟩) (blReader : Option BlReader)
    (hreader : ∀ reader, blReader = some reader →
      ∃ i o, i < files.length ∧ AtByte reader writer items i o)
    (offset : UInt64) :
    Served files.flatten offset.toNat (executeSlaveSync d writer blReader offset) ↔
      Servable writer files blReader offset := by
  unfold executeSlaveSync sessionReader Servable
  cases blReader with
  | none => exact newReader_served h hindex offset
  | some reader =>
    dsimp only
    by_cases hstays : binlogGetPosition writer reader = offset
    · rw [if_pos hstays, if_pos hstays]
      dsimp only
      rw [if_neg (not_not.mpr hstays)]
      obtain ⟨i, o, hi, hat⟩ := hreader reader rfl
      have hget : files[i]? = some files[i] := getElem?_eq_getElem hi
      have hserved := replyFrom_served h hat hget
      rw [← h.position hat hi, hstays] at hserved
      rw [hserved, InFile, hat.fd_eq, hat.offset_eq, getD_eq_getElem?_getD, hget]
      rfl
    · rw [if_neg hstays, if_neg hstays]
      exact newReader_served h hindex offset

end Serve

def twoFiles : List Bytes := [[1, 2], [3, 4, 5, 6, 7, 8, 9, 10]]

def twoFilesWriter : BlWriter :=
  { maxSize := 8, fd := 1, absOffset := 10, syncImmediately := false, index := ⟨itemsOf twoFiles⟩ }

theorem executeSlaveSync_serves_twoFiles :
    Served twoFiles.flatten (1 : UInt64).toNat
        (executeSlaveSync (diskOf twoFiles) (some twoFilesWriter) none 1) ↔
      Servable (some twoFilesWriter) twoFiles none 1 :=
  executeSlaveSync_serves (rawLog_diskOf (by decide) (by decide) (by decide)) rfl none
    (by simp) 1

def strayReader : BlReader :=
  { fd := 0, suffix := 0, offset := 4, indexItemPos := 0, index := ⟨[]⟩ }

/-- An offset far behind the end of a log of ten bytes fails the assertion;
and the reader at byte 4 answers a request for that byte with the bytes from
byte 2 on. -/
theorem offsets_behind_end_not_served :
    executeSlaveSync (diskOf twoFiles) (some twoFilesWriter) none (2 ^ 33) = .assertFailed ∧
      binlogGetPosition (some twoFilesWriter) strayReader = 4 ∧
      (∃ reader, executeSlaveSync (diskOf twoFiles) (some twoFilesWriter) (some strayReader) 4
        = .replied reader
            { returnCode := 0, data := [3, 4, 5, 6, 7, 8, 9, 10], offset := 10 }) ∧
      ¬ Served twoFiles.flatten 4
        (executeSlaveSync (diskOf twoFiles) (some twoFilesWriter) (some strayReader) 4) := by
  have hreply : ∃ reader, executeSlaveSync (diskOf twoFiles) (some twoFilesWriter)
      (some strayReader) 4 = .replied reader
        { returnCode := 0, data := [3, 4, 5, 6, 7, 8, 9, 10], offset := 10 } := ⟨_, rfl⟩
  refine ⟨rfl, rfl, hreply, ?_⟩
  obtain ⟨reader, hreply⟩ := hreply
  rw [hreply]
  rintro (herr | ⟨_, _, hoff⟩)
  · exact absurd herr (Int.lt_irrefl 0)
  · exact absurd (show (10 : Nat) = 4 + 8 from hoff) (by decide)

end Mile.Slave
