/-
  Mile.Binlog.RawLog
  ──────────────────
  **READING A LOG OF ANY BYTES.**

  What a reader does with a directory whose files hold anything, torn records included: only the
  index has to be right about the files.
-/
import Mile.Binlog.Layout
import Mile.Binlog.Reader

namespace Mile.Binlog

open Lib Common List

/-! ## §1. Where a reader stands. -/

/-- The reader stands at byte `o` of file `i`. -/
structure AtByte (reader : BlReader) (writer : Option BlWriter) (items : List FileItem)
    (i o : Nat) : Prop where
  fd_eq : reader.fd.toNat = i
  suffix_eq : reader.suffix.toNat = i
  pos_eq : reader.indexItemPos.toNat = i
  offset_eq : reader.offset.toNat = o
  index_eq : (reader.theIndex writer).items = items

theorem toInt_of_lt {n : Nat} (h : n < 2 ^ 31) : toInt n = n := by
  unfold toInt
  rw [if_pos (by omega)]
  omega

theorem toInt_neg_of_le {n : Nat} (h : 2 ^ 31 ≤ n) (h' : n < 2 ^ 32) : toInt n < 0 := by
  unfold toInt
  rw [if_neg (by omega)]
  omega

section Stand

variable {reader : BlReader} {writer : Option BlWriter} {items : List FileItem} {i o n : Nat}

theorem AtByte.theIndex_eq (h : AtByte reader writer items i o) :
    reader.theIndex writer = ⟨items⟩ := by
  rw [← h.index_eq]

theorem toNat_succ {a : UInt32} (ha : a.toNat = i) (hi : i + 1 < 2 ^ 32) :
    (a + 1).toNat = i + 1 := by
  rw [UInt32.toNat_add, ha]
  simpa using hi

theorem AtByte.forward (h : AtByte reader writer items i o) (hn : o + n < 2 ^ 32) :
    AtByte (reader.forward n) writer items i (o + n) where
  fd_eq := h.fd_eq
  suffix_eq := h.suffix_eq
  pos_eq := h.pos_eq
  offset_eq := by
    show (reader.offset + UInt32.ofNat n).toNat = o + n
    rw [UInt32.toNat_add, UInt32.toNat_ofNat', h.offset_eq]
    omega
  index_eq := by cases writer <;> exact h.index_eq

theorem AtByte.goBack (h : AtByte reader writer items i (o + n)) :
    AtByte (reader.goBack n) writer items i o where
  fd_eq := h.fd_eq
  suffix_eq := h.suffix_eq
  pos_eq := h.pos_eq
  offset_eq := by
    have hlt := reader.offset.toNat_lt
    rw [h.offset_eq] at hlt
    show (reader.offset - UInt32.ofNat n).toNat = o
    rw [UInt32.toNat_sub, UInt32.toNat_ofNat', h.offset_eq]
    omega
  index_eq := by cases writer <;> exact h.index_eq

theorem AtByte.nextFile (h : AtByte reader writer items i o) (hi : i + 1 < 2 ^ 32) :
    AtByte reader.nextFile writer items (i + 1) 0 where
  fd_eq := toNat_succ h.suffix_eq hi
  suffix_eq := toNat_succ h.suffix_eq hi
  pos_eq := toNat_succ h.pos_eq hi
  offset_eq := rfl
  index_eq := by cases writer <;> exact h.index_eq

end Stand

/-! ## §2. Files and index. -/

/-- The directory holds `files`, oldest first, and the index knows where each
of them starts in the log.  A directory in which no item was written yet has
one file. -/
structure RawLog (d : Disk) (items : List FileItem) (files : List Bytes) : Prop where
  count_lt : files.length < 2 ^ 32
  files_pos : 0 < files.length
  log_eq : ∀ i, d.log i = files[i]?
  size_lt : ∀ g ∈ files, g.length < 2 ^ 32
  items_eq : (items = [] ∧ files.length = 1) ∨ items.length = files.length
  suffix_eq : ∀ i (it : FileItem), items[i]? = some it → it.suffix.toNat = i
  /-- An item's offset is the total size of all earlier files. -/
  offset_eq : ∀ i (it : FileItem), items[i]? = some it →
    it.absOffset.toNat = (files.take i).flatten.length

theorem flatten_take_lt {files : List Bytes} (hsize : ∀ g ∈ files, g.length < 2 ^ 32)
    (hcount : files.length < 2 ^ 32) {i : Nat} (hi : i < files.length) :
    (files.take i).flatten.length + 2 ^ 32 < 2 ^ 64 := by
  have hle : ∀ gs : List Bytes, (∀ g ∈ gs, g.length < 2 ^ 32) →
      gs.flatten.length ≤ gs.length * 2 ^ 32 := by
    intro gs
    induction gs with
    | nil => simp
    | cons g gs ih =>
      intro h
      have hg := h g mem_cons_self
      have hgs := ih (fun x hx => h x (mem_cons_of_mem _ hx))
      rw [flatten_cons, length_append, length_cons]
      omega
  have h := hle (files.take i) (fun g hg => hsize g (mem_of_mem_take hg))
  rw [length_take] at h
  omega

section Read

variable {d : Disk} {items : List FileItem} {files : List Bytes} {writer : Option BlWriter}
  {reader : BlReader} {i o n mem : Nat} {g r next : Bytes}

section

variable (h : RawLog d items files)

include h

theorem RawLog.items_lt : items.length < 2 ^ 32 := by
  rcases h.items_eq with ⟨rfl, _⟩ | hlen
  · simp
  · rw [hlen]
    exact h.count_lt

theorem RawLog.items_length (hne : items ≠ []) : items.length = files.length := by
  rcases h.items_eq with ⟨he, _⟩ | hlen
  · exact absurd he hne
  · exact hlen

theorem RawLog.one_file (hempty : items = []) : files.length = 1 := by
  rcases h.items_eq with ⟨_, hlen⟩ | hlen
  · exact hlen
  · have hpos := h.files_pos
    rw [hempty, length_nil] at hlen
    omega

theorem RawLog.newest_iff (hat : AtByte reader writer items i o) (hi : i < files.length) :
    (reader.indexItemPos = (reader.theIndex writer).last ∨
      (reader.theIndex writer).last = noItem) ↔ i + 1 = files.length := by
  rw [hat.theIndex_eq, last_eq_noItem_iff h.items_lt]
  by_cases hempty : items = []
  · have hone := h.one_file hempty
    exact iff_of_true (.inr hempty) (by omega)
  · have hlast : (⟨items⟩ : BinlogIndex).last.toNat = files.length - 1 := by
      rw [last_toNat h.items_lt hempty]
      show items.length - 1 = _
      rw [h.items_length hempty]
    rw [← UInt32.toNat_inj, hat.pos_eq, hlast]
    constructor
    · rintro (heq | hno)
      · omega
      · exact absurd hno hempty
    · intro heq
      exact .inl (by omega)

/-- The offset in the whole log of a byte of file `i`. -/
theorem RawLog.position (hat : AtByte reader writer items i o) (hi : i < files.length) :
    (binlogGetPosition writer reader).toNat = (files.take i).flatten.length + o := by
  have hbound := flatten_take_lt h.size_lt h.count_lt hi
  have ho : o < 2 ^ 32 := hat.offset_eq ▸ reader.offset.toNat_lt
  simp only [binlogGetPosition, hat.theIndex_eq, last_eq_noItem_iff h.items_lt]
  by_cases hempty : items = []
  · -- without items the reader is in file 0, which starts at 0
    rw [if_pos hempty]
    have hone := h.one_file hempty
    obtain rfl : i = 0 := by omega
    rw [UInt64.toNat_add, UInt64.toNat_ofNat', hat.offset_eq]
    simp
    omega
  · rw [if_neg hempty]
    have hlen := h.items_length hempty
    have hitem : items[i]? = some ((⟨items⟩ : BinlogIndex).item reader.indexItemPos) := by
      rw [BinlogIndex.item, hat.pos_eq, getD_eq_getElem?_getD, getElem?_eq_getElem (by omega)]
      rfl
    rw [UInt64.toNat_add, UInt64.toNat_ofNat', hat.offset_eq, h.offset_eq i _ hitem]
    omega

end

/-! ## §3. `binlog_read_data`. -/

/-- What `binlog_read_data` of `n` bytes comes to, at byte `o` of file `i`. -/
inductive DataRead (writer : Option BlWriter) (items : List FileItem) (files : List Bytes)
    (reader : BlReader) (i o n : Nat) (g : Bytes) : Int × Bytes × BlReader → Prop where
  /-- The byte count does not fit an `int`. -/
  | refused {res : Int × Bytes × BlReader} : 2 ^ 31 ≤ n → res.1 < 0 →
      DataRead writer items files reader i o n g res
  /-- Less than a length field is left before the writer's position. -/
  | caught : caughtWriter writer reader →
      DataRead writer items files reader i o n g (0, [], reader)
  /-- The bytes are in the file, or no file comes behind it. -/
  | here {reader' : BlReader} : ¬ caughtWriter writer reader →
      (n ≤ (g.drop o).length ∨ i + 1 = files.length) →
      AtByte reader' writer items i (o + ((g.drop o).take n).length) →
      ((g.drop o).take n).length < 2 ^ 31 →
      DataRead writer items files reader i o n g
        (((g.drop o).take n).length, (g.drop o).take n, reader')
  /-- The rest of the file, then bytes of the next one. -/
  | across {reader' : BlReader} {next : Bytes} : ¬ caughtWriter writer reader →
      (g.drop o).length < n → files[i + 1]? = some next →
      AtByte reader' writer items (i + 1) (next.take (n - (g.drop o).length)).length →
      (g.drop o).length + (next.take (n - (g.drop o).length)).length < 2 ^ 31 →
      DataRead writer items files reader i o n g
        (((g.drop o).length + (next.take (n - (g.drop o).length)).length : Nat),
          g.drop o ++ next.take (n - (g.drop o).length), reader')

theorem toInt_cases {n : Nat} (h : n < 2 ^ 32) :
    (2 ^ 31 ≤ n ∧ toInt n < 0) ∨ (n < 2 ^ 31 ∧ toInt n = n) := by
  rcases Nat.lt_or_ge n (2 ^ 31) with hlt | hge
  · exact .inr ⟨hlt, toInt_of_lt hlt⟩
  · exact .inl ⟨hge, toInt_neg_of_le hge h⟩

section

variable (h : RawLog d items files) (hat : AtByte reader writer items i o) (hi : files[i]? = some g)

include h hat hi

theorem RawLog.pread (n : Nat) :
    whilePread d reader.fd n reader.offset.toNat = (g.drop o).take n := by
  rw [whilePread, hat.fd_eq, hat.offset_eq, h.log_eq, hi]
  rfl

theorem RawLog.forward_within (n : Nat) :
    AtByte (reader.forward ((g.drop o).take n).length) writer items i
      (o + ((g.drop o).take n).length) := by
  apply hat.forward
  have ho : o < 2 ^ 32 := hat.offset_eq ▸ reader.offset.toNat_lt
  have hsize := h.size_lt g (mem_of_getElem? hi)
  rw [length_take, length_drop]
  omega

/-- The cases of `binlog_read_data` at byte `o` of file `i`. -/
theorem RawLog.readData (hn : n < 2 ^ 32) :
    DataRead writer items files reader i o n g (binlogReadData d writer reader n) := by
  have hilt : i < files.length := (List.getElem?_eq_some_iff.mp hi).1
  have hcount := h.count_lt
  by_cases hc : caughtWriter writer reader
  · simp only [binlogReadData, if_pos hc]
    exact .caught hc
  simp only [binlogReadData, if_neg hc, h.pread hat hi]
  have hle : ((g.drop o).take n).length ≤ n := length_take_le _ _
  rcases toInt_cases (Nat.lt_of_le_of_lt hle hn) with ⟨hbig, hneg⟩ | ⟨hsmall, hint⟩
  · rw [if_pos hneg]
    exact .refused (hbig.trans hle) (Int.negSucc_lt_zero 0)
  rw [hint, if_neg (by omega)]
  by_cases hfull : ((g.drop o).take n).length = n
  · -- all of it is in this file
    rw [if_pos hfull]
    refine .here hc (.inl ?_) (h.forward_within hat hi n) hsmall
    rw [length_take] at hfull
    omega
  rw [if_neg hfull]
  by_cases hnew : i + 1 = files.length
  · rw [if_pos ((h.newest_iff hat hilt).mpr hnew)]
    exact .here hc (.inr hnew) (h.forward_within hat hi n) hsmall
  rw [if_neg (fun hlast => hnew ((h.newest_iff hat hilt).mp hlast))]
  -- the file is read to its end, and the next one is there
  have hrest : (g.drop o).length < n := by
    rw [length_take] at hfull
    omega
  have htake : (g.drop o).take n = g.drop o := take_of_length_le hrest.le
  have hat' := hat.nextFile (by omega)
  obtain ⟨next, hnext⟩ : ∃ next, files[i + 1]? = some next :=
    ⟨_, getElem?_eq_getElem (by omega)⟩
  have hfile : d.log (reader.suffix + 1).toNat = some next := by
    have hsuffix : (reader.suffix + 1).toNat = i + 1 := hat'.suffix_eq
    rw [hsuffix, h.log_eq, hnext]
  have hread := h.pread hat' hnext (n - (g.drop o).length)
  rw [drop_zero] at hread
  rw [htake, hfile]
  dsimp only
  rw [hread]
  have hmore : (next.take (n - (g.drop o).length)).length ≤ n - (g.drop o).length :=
    length_take_le _ _
  rcases toInt_cases (n := (next.take (n - (g.drop o).length)).length) (by omega) with
    ⟨hbig, hneg⟩ | ⟨_, hint'⟩
  · rw [if_pos hneg]
    exact .refused (by omega) (Int.negSucc_lt_zero 0)
  rw [hint', if_neg (by omega)]
  rcases toInt_cases (n := (g.drop o).length + (next.take (n - (g.drop o).length)).length)
    (by omega) with ⟨hbig, hneg⟩ | ⟨hsum, hint''⟩
  · exact .refused (by omega) hneg
  rw [hint'']
  have hfwd := h.forward_within hat' hnext (n - (g.drop o).length)
  rw [drop_zero, Nat.zero_add] at hfwd
  exact .across hc hrest hnext hfwd hsum

end

/-! ## §4. `binlog_read_record` at a whole record. -/

/-- `binlog_read_record` behind the length field. -/
def readBody (d : Disk) (writer : Option BlWriter) (mem : Nat) (head : Bytes)
    (reader : BlReader) : ReadResult × BlReader :=
  let recordLen := leNat head
  if mem < recordLen ∨ recordLen < 4 then (.fault, reader)
  else
    let body := binlogReadData d writer reader (recordLen - 4)
    if body.1 < 0 then (.error, body.2.2)
    else if body.1 ≠ (recordLen - 4 : Nat) then (.eof, body.2.2.goBack (4 + body.1.toNat))
    else (.record (head ++ body.2.1), body.2.2)

section

variable (h : RawLog d items files)
  (hw : ∀ w, writer = some w → w.absOffset.toNat = files.flatten.length)
  (hr : IsRecord r) (hmem : r.length ≤ mem) (hi : files[i]? = some g)

include hi

theorem flatten_take_succ :
    (files.take (i + 1)).flatten.length = (files.take i).flatten.length + g.length := by
  rw [take_add_one, hi, List.flatten_append, length_append]
  simp

theorem flatten_drop_at (ho : o ≤ g.length) :
    files.flatten.drop ((files.take i).flatten.length + o)
      = g.drop o ++ (files.drop (i + 1)).flatten := by
  obtain ⟨hlt, hget⟩ := List.getElem?_eq_some_iff.mp hi
  rw [flatten_split hlt, hget, ← drop_drop, drop_left, drop_append_of_le_length ho]

theorem flatten_take_add_le : (files.take i).flatten.length + g.length ≤ files.flatten.length := by
  obtain ⟨hlt, hget⟩ := List.getElem?_eq_some_iff.mp hi
  rw [flatten_split hlt, hget, length_append, length_append]
  omega

include h

include hw in
theorem RawLog.not_caught (hat : AtByte reader writer items i o)
    (hleft : (files.take i).flatten.length + o + 4 ≤ files.flatten.length) :
    ¬ caughtWriter writer reader := by
  cases writer with
  | none => exact id
  | some w =>
    show ¬ (w.absOffset - binlogGetPosition (some w) reader).toNat < 4
    have hpos := h.position hat (List.getElem?_eq_some_iff.mp hi).1
    have habs := hw w rfl
    have hlt := w.absOffset.toNat_lt
    rw [UInt64.toNat_sub, hpos, habs]
    omega

theorem RawLog.readData_within (hat : AtByte reader writer items i o) (hn : n < 2 ^ 31)
    (hfit : n ≤ (g.drop o).length) (hc : ¬ caughtWriter writer reader) :
    ∃ reader', binlogReadData d writer reader n = ((n : Int), (g.drop o).take n, reader') ∧
      AtByte reader' writer items i (o + n) := by
  have hlen : ((g.drop o).take n).length = n := by
    rw [length_take]
    omega
  have hread := h.readData (n := n) hat hi (by omega)
  generalize binlogReadData d writer reader n = res at hread ⊢
  cases hread with
  | refused hbig _ => omega
  | caught hc' => exact absurd hc' hc
  | here _ _ hat' =>
    rw [hlen] at hat' ⊢
    exact ⟨_, rfl, hat'⟩
  | across _ hshort => omega

/-- At the end of a file the reader goes on in the next one. -/
theorem RawLog.readData_next (hat : AtByte reader writer items i g.length)
    (hnext : files[i + 1]? = some next) (hn : 0 < n) (hlt : n < 2 ^ 31)
    (hc : ¬ caughtWriter writer reader) :
    ∃ reader', binlogReadData d writer reader n
        = (((next.take n).length : Int), next.take n, reader') ∧
      AtByte reader' writer items (i + 1) (next.take n).length := by
  have hmore := (List.getElem?_eq_some_iff.mp hnext).1
  have hread := h.readData (n := n) hat hi (by omega)
  generalize binlogReadData d writer reader n = res at hread ⊢
  have hnil : g.drop g.length = [] := drop_length
  cases hread with
  | refused hbig _ => omega
  | caught hc' => exact absurd hc' hc
  | here _ hfit _ =>
    rw [hnil, length_nil] at hfit
    omega
  | across _ _ hnext' hat' =>
    obtain rfl := Option.some.inj (hnext'.symm.trans hnext)
    simp only [hnil, length_nil, Nat.sub_zero, Nat.zero_add, nil_append] at hat' ⊢
    exact ⟨_, rfl, hat'⟩

theorem RawLog.readData_refused (hat : AtByte reader writer items i o) (hbig : 2 ^ 31 ≤ n)
    (hn : n < 2 ^ 32) (hfit : n ≤ (g.drop o).length)
    (hc : ¬ caughtWriter writer reader) : (binlogReadData d writer reader n).1 < 0 := by
  have hlen : ((g.drop o).take n).length = n := by
    rw [length_take]
    omega
  simp only [binlogReadData, if_neg hc, h.pread hat hi, hlen, if_pos (toInt_neg_of_le hbig hn)]
  decide

include hw hr hmem

/-- The rest of a record that is there is read, unless it is too long. -/
theorem readBody_whole (hat : AtByte reader writer items i (o + 4)) (hpre : r <+: g.drop o) :
    if r.length < 2 ^ 31 + 4 then
      ∃ reader', readBody d writer mem (r.take 4) reader = (.record r, reader') ∧
        AtByte reader' writer items i (o + r.length)
    else (readBody d writer mem (r.take 4) reader).1 = .error := by
  have hsize : headerSize ≤ r.length := hr.1
  rw [headerSize] at hsize
  obtain ⟨rest, hrest⟩ := hpre
  have hglen : g.length - o = r.length + rest.length := by
    rw [← length_drop, ← hrest, length_append]
  have hlog := flatten_take_add_le hi
  have hlen : leNat (r.take 4) = r.length := hr.2
  have hlt : leNat (r.take 4) < 256 ^ (r.take 4).length := leNat_lt _
  rw [hlen, length_take, Nat.min_eq_left (by omega)] at hlt
  have hfit : r.length - 4 ≤ (g.drop (o + 4)).length := by
    rw [length_drop]
    omega
  have hcaught : ¬ caughtWriter writer reader := h.not_caught hw hi hat (by omega)
  have hpool : ¬ (mem < r.length ∨ r.length < 4) := by omega
  simp only [readBody, hlen, if_neg hpool]
  -- 2 ^ 31 is where the byte count of the body turns negative
  by_cases hsmall : r.length < 2 ^ 31 + 4
  · obtain ⟨reader', hread, hat'⟩ := h.readData_within hi hat (by omega) hfit hcaught
    have hbody : (g.drop (o + 4)).take (r.length - 4) = r.drop 4 := by
      rw [← drop_drop, ← hrest, drop_append_of_le_length (by omega), take_left' (by simp)]
    rw [if_pos hsmall]
    refine ⟨reader', ?_, ?_⟩
    · rw [hread, hbody, if_neg (by omega), if_neg (by simp), take_append_drop]
    · rwa [show o + 4 + (r.length - 4) = o + r.length by omega] at hat'
  · rw [if_neg hsmall, if_pos (h.readData_refused hi hat (by omega) (by omega) hfit hcaught)]

omit h hw hr hmem hi in
theorem readRecord_of_head {head : Bytes} {reader' : BlReader}
    (hread : binlogReadData d writer reader 4 = (4, head, reader')) :
    binlogReadRecord d writer mem reader = readBody d writer mem head reader' := by
  have hzero : ¬ ((4 : Int) < 0) := by decide
  simp only [binlogReadRecord, hread, if_neg hzero, ne_eq, not_true_eq_false, if_false]
  rfl

omit h hw hmem hi in
theorem take_four {w : Bytes} (hpre : r <+: w) : w.take 4 = r.take 4 ∧ (r.take 4).length = 4 := by
  have hsize : headerSize ≤ r.length := hr.1
  rw [headerSize] at hsize
  obtain ⟨rest, rfl⟩ := hpre
  exact ⟨take_append_of_le_length (by omega), by rw [length_take]; omega⟩

/-- A record that is there is read. -/
theorem readRecord_whole (hat : AtByte reader writer items i o) (hpre : r <+: g.drop o) :
    if r.length < 2 ^ 31 + 4 then
      ∃ reader', binlogReadRecord d writer mem reader = (.record r, reader') ∧
        AtByte reader' writer items i (o + r.length)
    else (binlogReadRecord d writer mem reader).1 = .error := by
  have hsize : headerSize ≤ r.length := hr.1
  rw [headerSize] at hsize
  have hle := hpre.length_le
  have hcaught : ¬ caughtWriter writer reader := by
    have hlog := flatten_take_add_le hi
    rw [length_drop] at hle
    exact h.not_caught hw hi hat (by omega)
  obtain ⟨reader', hread, hat'⟩ := h.readData_within (n := 4) hi hat (by decide) (by omega) hcaught
  rw [(take_four hr hpre).1] at hread
  rw [readRecord_of_head hread]
  exact readBody_whole h hw hr hmem hi hat' hpre

/-- A record at the start of the next file is read. -/
theorem readRecord_whole_next (hat : AtByte reader writer items i g.length)
    (hnext : files[i + 1]? = some next) (hpre : r <+: next) :
    if r.length < 2 ^ 31 + 4 then
      ∃ reader', binlogReadRecord d writer mem reader = (.record r, reader') ∧
        AtByte reader' writer items (i + 1) r.length
    else (binlogReadRecord d writer mem reader).1 = .error := by
  have hsize : headerSize ≤ r.length := hr.1
  rw [headerSize] at hsize
  have hcaught : ¬ caughtWriter writer reader := by
    have hlog := flatten_take_add_le hnext
    have hle := hpre.length_le
    rw [flatten_take_succ hi] at hlog
    exact h.not_caught hw hi hat (by omega)
  obtain ⟨reader', hread, hat'⟩ :=
    h.readData_next (n := 4) hi hat hnext (by decide) (by decide) hcaught
  obtain ⟨htake, hfour⟩ := take_four hr hpre
  rw [htake, hfour] at hread hat'
  have hbody := readBody_whole (o := 0) h hw hr hmem hnext hat' hpre
  rw [Nat.zero_add] at hbody
  rw [readRecord_of_head hread]
  exact hbody

end

/-! ## §5. `binlog_reader_init_byoffset`. -/

/-- The scan stops at the last item that passes. -/
theorem scanItems_spec {p : FileItem → Bool} {first : FileItem} (hfirst : items[0]? = some first)
    (hp : p first = true) :
    (∃ it, items[scanItems ⟨items⟩ p]? = some it ∧ p it = true) ∧
      ∀ it, items[scanItems ⟨items⟩ p + 1]? = some it → p it = false := by
  -- the scan is a `takeWhile`; the item it stops at heads the rest
  have hget : ∀ j : Nat, items[j]? = (items.takeWhile p ++ items.dropWhile p)[j]? := by
    intro j
    rw [takeWhile_append_dropWhile]
  have hpos : 0 < (items.takeWhile p).length := by
    cases items with
    | nil => simp at hfirst
    | cons a as =>
      have ha : a = first := by simpa using hfirst
      rw [ha, takeWhile_cons_of_pos hp]
      simp
  have hscan : scanItems ⟨items⟩ p + 1 = (items.takeWhile p).length := by
    show (items.takeWhile p).length - 1 + 1 = _
    omega
  constructor
  · have hlt : scanItems ⟨items⟩ p < (items.takeWhile p).length := by omega
    refine ⟨(items.takeWhile p)[scanItems ⟨items⟩ p], ?_, ?_⟩
    · rw [hget, getElem?_append_left hlt, getElem?_eq_getElem hlt]
    · exact mem_takeWhile_imp (getElem_mem hlt)
  · intro it hit
    rw [hget, hscan, getElem?_append_right (Nat.le_refl _), Nat.sub_self,
      ← head?_eq_getElem?] at hit
    have hhead := head?_dropWhile_not p items
    rw [hit] at hhead
    simpa using hhead

theorem item_ofNat {it : FileItem} (hlt : items.length < 2 ^ 32) (hit : items[i]? = some it) :
    (UInt32.ofNat i).toNat = i ∧ (⟨items⟩ : BinlogIndex).item (UInt32.ofNat i) = it := by
  have hi : i < items.length := (List.getElem?_eq_some_iff.mp hit).1
  have hpos : (UInt32.ofNat i).toNat = i := UInt32.toNat_ofNat_of_lt' (hi.trans hlt)
  refine ⟨hpos, ?_⟩
  rw [BinlogIndex.item, hpos, getD_eq_getElem?_getD]
  show (items[i]?).getD default = it
  rw [hit]
  rfl

theorem RawLog.atItem (h : RawLog d items files) {it : FileItem}
    (hit : items[i]? = some it) (hw : ∀ w, writer = some w → w.index.items = items)
    (offset : UInt32) :
    AtByte (readerAtItem ⟨items⟩ i offset) writer items i offset.toNat := by
  obtain ⟨hpos, hitem⟩ := item_ofNat h.items_lt hit
  have hsuffix : (readerAtItem ⟨items⟩ i offset).suffix.toNat = i := by
    show ((⟨items⟩ : BinlogIndex).item (UInt32.ofNat i)).suffix.toNat = i
    rw [hitem]
    exact h.suffix_eq i it hit
  exact
    { fd_eq := hsuffix
      suffix_eq := hsuffix
      pos_eq := hpos
      offset_eq := rfl
      index_eq := by
        cases writer with
        | none => rfl
        | some w => exact hw w rfl }

/-- **A new reader** stands in the file the requested offset falls into, or in
the newest one; its offset there is cut to 32 bits. -/
theorem RawLog.readerInit (h : RawLog d items files)
    (hindex : readerIndex d writer = some ⟨items⟩) (offset : UInt64) :
    ∃ reader i, binlogReaderInitByoffset d offset writer = some (d, reader) ∧
      i < files.length ∧ (files.take i).flatten.length ≤ offset.toNat ∧
      (i + 1 < files.length → offset.toNat < (files.take (i + 1)).flatten.length) ∧
      AtByte reader writer items i ((offset.toNat - (files.take i).flatten.length) % 2 ^ 32) := by
  have hpos := h.files_pos
  -- the index of a reader with a writer is the writer's
  have hwi : ∀ w, writer = some w → w.index.items = items := by
    rintro w rfl
    exact congrArg BinlogIndex.items (Option.some.inj hindex)
  have hopen : ∀ {k : Nat}, k < files.length → d.openCreate k = d := by
    intro k hk
    have hlog : d.log k = some files[k] := by
      rw [h.log_eq, getElem?_eq_getElem hk]
    exact openCreate_of_exists hlog
  by_cases hempty : items = []
  · -- no item yet: one file, and the offset is taken as it is
    refine ⟨{ fd := 0, suffix := 0, offset := offset.toUInt32, indexItemPos := 0,
              index := ⟨items⟩ }, 0, ?_, hpos, by simp, ?_, rfl, rfl, rfl, ?_, ?_⟩
    · have hzero : (0 : UInt32).toNat = 0 := rfl
      simp only [binlogReaderInitByoffset, hindex, Option.map_some,
        if_pos ((last_eq_noItem_iff h.items_lt).mpr hempty), hzero, hopen hpos]
    · have hone := h.one_file hempty
      omega
    · simp
    · cases writer with
      | none => rfl
      | some w => exact hwi w rfl
  · have hyes : (⟨items⟩ : BinlogIndex).last ≠ noItem :=
      fun hno => hempty ((last_eq_noItem_iff h.items_lt).mp hno)
    have hlen := h.items_length hempty
    obtain ⟨first, hfirst⟩ : ∃ first, items[0]? = some first :=
      ⟨_, getElem?_eq_getElem (by omega)⟩
    have hpfirst : decide (first.absOffset ≤ offset) = true := by
      simp [UInt64.le_iff_toNat_le, h.offset_eq 0 first hfirst]
    obtain ⟨⟨it, hit, hpit⟩, hstop⟩ :=
      scanItems_spec (p := fun it => decide (it.absOffset ≤ offset)) hfirst hpfirst
    set i := scanItems ⟨items⟩ (fun it => it.absOffset ≤ offset) with hidef
    have hi : i < files.length := by
      have := (List.getElem?_eq_some_iff.mp hit).1
      omega
    have hitoff := h.offset_eq i it hit
    rw [decide_eq_true_eq, UInt64.le_iff_toNat_le, hitoff] at hpit
    have hat := h.atItem hit hwi (offset - it.absOffset).toUInt32
    refine ⟨readerAtItem ⟨items⟩ i (offset - it.absOffset).toUInt32, i, ?_, hi, hpit, ?_, ?_⟩
    · simp only [binlogReaderInitByoffset, hindex, Option.map_some, if_neg hyes, ← hidef,
        (item_ofNat h.items_lt hit).2, hat.fd_eq, hopen hi]
    · -- the scan stopped in front of the next item
      intro hmore
      obtain ⟨nx, hnx⟩ : ∃ nx, items[i + 1]? = some nx :=
        ⟨_, getElem?_eq_getElem (by omega)⟩
      have hpnx := hstop nx hnx
      rw [decide_eq_false_iff_not, UInt64.le_iff_toNat_le, h.offset_eq (i + 1) nx hnx] at hpnx
      omega
    · have hle : it.absOffset ≤ offset := by
        rw [UInt64.le_iff_toNat_le, hitoff]
        exact hpit
      rwa [UInt64.toNat_toUInt32, UInt64.toNat_sub_of_le _ _ hle, hitoff] at hat

end Read

/-! ## §6. A directory from its files. -/

def itemsOf (files : List Bytes) : List FileItem :=
  files.mapIdx fun i _ =>
    { time := 0, absOffset := UInt64.ofNat (files.take i).flatten.length,
      suffix := UInt32.ofNat i }

def diskOf (files : List Bytes) : Disk :=
  { log := fun i => files[i]?, index := indexText (itemsOf files) }

theorem rawLog_diskOf {files : List Bytes} (hcount : files.length < 2 ^ 32)
    (hpos : 0 < files.length) (hsize : ∀ g ∈ files, g.length < 2 ^ 32) :
    RawLog (diskOf files) (itemsOf files) files where
  count_lt := hcount
  files_pos := hpos
  log_eq := fun _ => rfl
  size_lt := hsize
  items_eq := .inr (by simp [itemsOf])
  suffix_eq := by
    intro i it hit
    obtain ⟨hi, rfl⟩ := List.getElem?_eq_some_iff.mp hit
    simp only [itemsOf, length_mapIdx] at hi
    simp only [itemsOf, getElem_mapIdx, UInt32.toNat_ofNat']
    omega
  offset_eq := by
    intro i it hit
    obtain ⟨hi, rfl⟩ := List.getElem?_eq_some_iff.mp hit
    simp only [itemsOf, length_mapIdx] at hi
    have hbound := flatten_take_lt hsize hcount hi
    simp only [itemsOf, getElem_mapIdx, UInt64.toNat_ofNat']
    omega

end Mile.Binlog
