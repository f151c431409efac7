/-
  Mile.Binlog.Index
  ─────────────────
  **THE INDEX FILE OF THE BINLOG.**

  `mile-bin.index` has one text line for each log file: the time of its first record, its absolute
  offset and its suffix.
-/
import Mile.Lib.CText

namespace Mile.Binlog

open Lib List

/-! ## §1. Items. -/

/-- `struct binlog_file_item`. -/
structure FileItem where
  /-- Time of the file's first record. -/
  time : UInt32
  /-- Absolute offset of the file's first record. -/
  absOffset : UInt64
  suffix : UInt32
  deriving Repr, DecidableEq

instance : Inhabited FileItem := ⟨⟨0, 0, 0⟩⟩

/-- `struct binlog_index_t`, without the directory and the array's
capacity. -/
structure BinlogIndex where
  items : List FileItem
  deriving Repr, DecidableEq

/-- `index->last` of an index without items. -/
def noItem : UInt32 := 0xFFFFFFFF

/-- `index->last`. -/
def BinlogIndex.last (index : BinlogIndex) : UInt32 := UInt32.ofNat index.items.length - 1

/-- `index->items[i]`; only used with `i` in range. -/
def BinlogIndex.item (index : BinlogIndex) (i : UInt32) : FileItem :=
  index.items.getD i.toNat default

/-- `add_item_array`. -/
def addItemArray (index : BinlogIndex) (item : FileItem) : BinlogIndex :=
  ⟨index.items ++ [item]⟩

variable {index : BinlogIndex} {item : FileItem}

theorem last_eq_noItem_iff (h : index.items.length < 2 ^ 32) :
    index.last = noItem ↔ index.items = [] := by
  rw [← length_eq_zero_iff, ← UInt32.toNat_inj, BinlogIndex.last, UInt32.toNat_sub,
    UInt32.toNat_ofNat', noItem]
  simp only [UInt32.toNat_one, UInt32.reduceToNat]
  omega

theorem last_toNat (h : index.items.length < 2 ^ 32)
    (hne : index.items ≠ []) : index.last.toNat = index.items.length - 1 := by
  have hpos := length_pos_of_ne_nil hne
  rw [BinlogIndex.last, UInt32.toNat_sub, UInt32.toNat_ofNat']
  simp only [UInt32.toNat_one]
  omega

theorem item_last (h : index.items.length < 2 ^ 32)
    (hne : index.items ≠ []) : index.items.getLast? = some (index.item index.last) := by
  have hpos := length_pos_of_ne_nil hne
  rw [BinlogIndex.item, last_toNat h hne, getLast?_eq_getElem?, getD_eq_getElem?_getD,
    getElem?_eq_getElem (by omega)]
  rfl

/-! ## §2. The text. -/

/-- `snprintf(buf, buf_len, "%u\t%llu\t%u\n", …)`; at most 43 of 128
characters, so nothing is cut. -/
def itemLine (item : FileItem) : List Char :=
  printU item.time.toNat ++ '\t' :: (printU item.absOffset.toNat ++
    '\t' :: (printU item.suffix.toNat ++ ['\n']))

/-- The index file holding `items`. -/
def indexText (items : List FileItem) : List Char := (items.map itemLine).flatten

/-- The outcome of one line of `load_index_file`. -/
inductive LineResult where
  | skip
  | item (it : FileItem)
  | notEnoughToken
  deriving Repr, DecidableEq

/-- The conversion of an `int64_t` to an unsigned type of `w` bits. -/
def toUnsigned (w : Nat) (z : Int) : Nat := (z % 2 ^ w).toNat

/-- One line: three tokens; empty lines and lines starting with `#` are
passed over. -/
def parseLine (line : List Char) : LineResult :=
  match strtok isSpace (line.takeWhile (· ≠ '\x00')) with
  | [] => .skip
  | ('#' :: _) :: _ => .skip
  | a :: b :: c :: _ =>
    .item { time := UInt32.ofNat (toUnsigned 32 (strtoll a))
            absOffset := UInt64.ofNat (toUnsigned 64 (strtoll b))
            suffix := UInt32.ofNat (toUnsigned 32 (strtoll c)) }
  | _ => .notEnoughToken

/-- The loop of `load_index_file` over the lines. -/
def loadLines (index : BinlogIndex) : List (List Char) → Option BinlogIndex
  | [] => some index
  | l :: ls =>
    match parseLine l with
    | .skip => loadLines index ls
    | .item it => loadLines (addItemArray index it) ls
    | .notEnoughToken => none

/-- `load_index_file`.  The line break belongs to the delimiters, so cutting
at it instead of behind it changes no token, and the empty text behind the
last break is a line without tokens. -/
def loadIndexFile (text : List Char) : Option BinlogIndex :=
  loadLines ⟨[]⟩ (text.splitOnP (· = '\n'))

/-! ## §3. Round trip. -/

def itemFields (item : FileItem) : List Char :=
  printU item.time.toNat ++ '\t' :: (printU item.absOffset.toNat ++
    '\t' :: printU item.suffix.toNat)

theorem itemLine_eq (item : FileItem) : itemLine item = itemFields item ++ ['\n'] := by
  simp [itemLine, itemFields]

theorem mem_itemFields {c : Char} (h : c ∈ itemFields item) : c.isDigit = true ∨ c = '\t' := by
  simp only [itemFields, mem_append, mem_cons] at h
  rcases h with h | rfl | h | rfl | h
  · exact .inl (isDigit_of_mem_printU h)
  · exact .inr rfl
  · exact .inl (isDigit_of_mem_printU h)
  · exact .inr rfl
  · exact .inl (isDigit_of_mem_printU h)

theorem not_newline_itemFields {c : Char} (h : c ∈ itemFields item) :
    decide (c = '\n') = false := by
  rw [decide_eq_false_iff_not]
  rintro rfl
  rcases mem_itemFields h with h | h <;> revert h <;> decide

theorem toUnsigned_natCast {w n : Nat} (h : n < 2 ^ w) : toUnsigned w (n : Int) = n := by
  have hmod : ((n : Int) % 2 ^ w) = n := Int.emod_eq_of_lt (by omega) (by exact_mod_cast h)
  rw [toUnsigned, hmod]
  rfl

theorem strtok_itemFields (item : FileItem) :
    strtok isSpace (itemFields item)
      = [printU item.time.toNat, printU item.absOffset.toNat, printU item.suffix.toNat] := by
  have hword : ∀ n, ∀ c ∈ printU n, isSpace c = false :=
    fun n c hc => (isDigit_classes (isDigit_of_mem_printU hc)).1
  unfold itemFields
  rw [strtok_cons (printU_ne_nil _) (hword _) (by decide),
    strtok_cons (printU_ne_nil _) (hword _) (by decide),
    strtok_single (printU_ne_nil _) (hword _)]

/-- A line that was written is read back. -/
theorem parseLine_itemFields (h : item.absOffset.toNat < 2 ^ 63) :
    parseLine (itemFields item) = .item item := by
  -- a line has no NUL, and its first character is no `#`
  have htake : (itemFields item).takeWhile (· ≠ '\x00') = itemFields item := by
    rw [takeWhile_eq_self_iff]
    intro c hc
    rcases mem_itemFields hc with hd | rfl
    · have hne : c ≠ '\x00' := by rintro rfl; revert hd; decide
      simpa using hne
    · decide
  have htime : item.time.toNat < 2 ^ 63 := item.time.toNat_lt.trans (by decide)
  have hsuffix : item.suffix.toNat < 2 ^ 63 := item.suffix.toNat_lt.trans (by decide)
  unfold parseLine
  rw [htake, strtok_itemFields]
  split
  · next heq => simp at heq
  · next cs _ heq =>
      simp only [List.cons.injEq] at heq
      have hc := isDigit_of_mem_printU (n := item.time.toNat) (c := '#')
        (by rw [heq.1]; exact mem_cons_self)
      exact absurd rfl (isDigit_classes hc).2.2.2
  · next a b c _ _ heq =>
      simp only [List.cons.injEq] at heq
      obtain ⟨rfl, rfl, rfl, _⟩ := heq
      rw [strtoll_printU htime, strtoll_printU h, strtoll_printU hsuffix,
        toUnsigned_natCast item.time.toNat_lt, toUnsigned_natCast item.absOffset.toNat_lt,
        toUnsigned_natCast item.suffix.toNat_lt]
      simp
  · next _ hthree => exact (hthree _ _ _ _ rfl).elim

theorem loadLines_itemFields :
    ∀ (items : List FileItem) (index : BinlogIndex), (∀ it ∈ items, it.absOffset.toNat < 2 ^ 63) →
        loadLines index (items.map itemFields ++ [[]]) = some ⟨index.items ++ items⟩
  | [], index, _ => by simp [loadLines, parseLine, strtok]
  | it :: items, index, h => by
    have hparse := parseLine_itemFields (h it mem_cons_self)
    have ih := loadLines_itemFields items (addItemArray index it)
      (fun x hx => h x (mem_cons_of_mem _ hx))
    simp only [map_cons, cons_append, loadLines, hparse]
    rw [ih]
    simp [addItemArray]

/-- **Loading the index file** gives back the items written to it, as long as
their offsets are within the range of `strtoll`. -/
theorem loadIndexFile_indexText {items : List FileItem}
    (h : ∀ it ∈ items, it.absOffset.toNat < 2 ^ 63) :
    loadIndexFile (indexText items) = some ⟨items⟩ := by
  -- the text is the lines of the items, each with its line break
  have hlines : indexText items = ((items.map itemFields).map (· ++ ['\n'])).flatten := by
    rw [indexText, map_map]
    congr 2
    funext it
    exact itemLine_eq it
  have hnl : ∀ l ∈ items.map itemFields, ∀ c ∈ l, decide (c = '\n') = false := by
    intro l hl c hc
    obtain ⟨it, _, rfl⟩ := mem_map.mp hl
    exact not_newline_itemFields hc
  rw [loadIndexFile, hlines, splitOnP_lines (by decide) _ hnl, loadLines_itemFields items _ h]
  rfl

example : loadIndexFile "7\t0\t0\n9\t96\t1\n".toList
    = some ⟨[⟨7, 0, 0⟩, ⟨9, 96, 1⟩]⟩ := by decide

end Mile.Binlog
