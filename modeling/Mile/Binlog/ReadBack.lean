/-
  Mile.Binlog.ReadBack
  ────────────────────
  **READING A BINLOG THAT IS LAID OUT WELL.**

  On a directory with a `Layout`, a reader at a record boundary returns the records behind it,
  across files; one of 2 ^ 31 + 4 bytes or more is refused.
-/
import Mile.Binlog.RawLog

namespace Mile.Binlog

open Lib List

/-! ## §1. Where a reader stands. -/

/-- The reader stands in file `i` between the records `xs` and `ys`. -/
structure ReaderAt (reader : BlReader) (writer : Option BlWriter) (items : List FileItem)
    (files : List (List BinlogRecord)) (i : Nat) (xs ys : List BinlogRecord) : Prop where
  file_eq : files[i]? = some (xs ++ ys)
  at_byte : AtByte reader writer items i (image xs).length

def Agrees (writer : Option BlWriter) (items : List FileItem)
    (files : List (List BinlogRecord)) : Prop :=
  ∀ w, writer = some w →
    w.index.items = items ∧ w.absOffset.toNat = (image files.flatten).length

theorem flatten_map_image (files : List (List BinlogRecord)) :
    (files.map image).flatten = image files.flatten := by
  induction files with
  | nil => rfl
  | cons g gs ih => rw [map_cons, flatten_cons, flatten_cons, image_append, ih]

theorem flatten_take_map_image (files : List (List BinlogRecord)) (i : Nat) :
    ((files.map image).take i).flatten = image (files.take i).flatten := by
  rw [← map_take, flatten_map_image]

section Read

variable {d : Disk} {items : List FileItem} {fs : List (List BinlogRecord)}
  {f : List BinlogRecord} {writer : Option BlWriter} {reader : BlReader} {i o n mem : Nat}
  {g xs ys : List BinlogRecord} {y : BinlogRecord}

/-- A log of records is one of their bytes. -/
theorem Layout.rawLog (hlay : Layout d items fs f) :
    RawLog d items ((fs ++ [f]).map image) where
  count_lt := by
    have hcount := hlay.count_lt
    rw [length_map, length_append, length_singleton]
    omega
  files_pos := by simp
  log_eq := fun i => by rw [hlay.log_eq, getElem?_map]
  size_lt := by
    intro b hb
    obtain ⟨g, hg, rfl⟩ := mem_map.mp hb
    exact hlay.size_lt g hg
  items_eq := by
    rcases hlay.items_eq with ⟨hempty, rfl, _⟩ | hlen
    · exact .inl ⟨hempty, rfl⟩
    · exact .inr (by simpa using hlen)
  suffix_eq := hlay.suffix_eq
  offset_eq := by
    intro i it hit
    have hne : items ≠ [] := by
      rintro rfl
      simp at hit
    have hi := (List.getElem?_eq_some_iff.mp hit).1
    rw [hlay.items_length hne] at hi
    rw [hlay.offset_eq i it hit, flatten_take_map_image,
      take_append_of_le_length (Nat.le_of_lt_succ hi)]

theorem map_image_getElem? (hi : (fs ++ [f])[i]? = some g) :
    ((fs ++ [f]).map image)[i]? = some (image g) := by
  rw [getElem?_map, hi]
  rfl

theorem Agrees.abs_eq (hw : Agrees writer items (fs ++ [f])) :
    ∀ w, writer = some w → w.absOffset.toNat = ((fs ++ [f]).map image).flatten.length := by
  intro w hwr
  rw [flatten_map_image]
  exact (hw w hwr).2

/-! ## §2. `binlog_read_record`. -/

/-- Behind the last record the reader gets the end of the log. -/
theorem readRecord_eof (mem : Nat) (hlay : Layout d items fs f)
    (hat : ReaderAt reader writer items (fs ++ [f]) i xs [])
    (hrest : ((fs ++ [f]).drop (i + 1)).flatten = []) :
    ∃ reader' i' xs', binlogReadRecord d writer mem reader = (.eof, reader') ∧
      ReaderAt reader' writer items (fs ++ [f]) i' xs' [] ∧
      ((fs ++ [f]).drop (i' + 1)).flatten = [] := by
  obtain ⟨hi, hbyte⟩ := hat
  rw [append_nil] at hi
  -- it is enough that the length field reads as empty
  suffices hread : ∃ reader' i' xs', binlogReadData d writer reader 4 = (0, [], reader') ∧
      (fs ++ [f])[i']? = some xs' ∧ AtByte reader' writer items i' (image xs').length ∧
      ((fs ++ [f]).drop (i' + 1)).flatten = [] by
    obtain ⟨reader', i', xs', hdata, hfile, hat', hrest'⟩ := hread
    refine ⟨reader'.goBack 0, i', xs', by simp [binlogReadRecord, hdata],
      ⟨by rw [append_nil]; exact hfile, AtByte.goBack (n := 0) hat'⟩, hrest'⟩
  have hread := hlay.rawLog.readData (n := 4) hbyte (map_image_getElem? hi) (by decide)
  have hnil : (image xs).drop (image xs).length = [] := drop_length
  generalize binlogReadData d writer reader 4 = res at hread ⊢
  cases hread with
  | refused hbig _ => omega
  | caught _ => exact ⟨reader, i, xs, rfl, hi, hbyte, hrest⟩
  | here _ _ hat' =>
    rw [hnil] at hat' ⊢
    exact ⟨_, i, xs, rfl, hi, hat', hrest⟩
  | across _ _ hnext hat' =>
    -- the newest file is empty and the reader stands at the end of the one before
    rw [getElem?_map] at hnext
    obtain ⟨g, hg, rfl⟩ := Option.map_eq_some_iff.mp hnext
    obtain ⟨hlt, hget⟩ := List.getElem?_eq_some_iff.mp hg
    rw [drop_eq_getElem_cons hlt, hget, flatten_cons] at hrest
    obtain ⟨rfl, hrest'⟩ := append_eq_nil_iff.mp hrest
    rw [hnil] at hat' ⊢
    exact ⟨_, i + 1, [], rfl, hg, hat', hrest'⟩

/-! ## §3. The rest of the log. -/

def remaining (files : List (List BinlogRecord)) (i : Nat) (ys : List BinlogRecord) :
    List BinlogRecord :=
  ys ++ (files.drop (i + 1)).flatten

variable {zs : List BinlogRecord}

/-- At the end of a file the next record starts the next one. -/
theorem Layout.next_of_remaining (hlay : Layout d items fs f)
    (hrest : remaining (fs ++ [f]) i [] = y :: zs) :
    ∃ ys, (fs ++ [f])[i + 1]? = some (y :: ys) ∧ remaining (fs ++ [f]) (i + 1) ys = zs := by
  unfold remaining at hrest ⊢
  rw [nil_append] at hrest
  cases hdrop : (fs ++ [f]).drop (i + 1) with
  | nil => rw [hdrop] at hrest; simp at hrest
  | cons g gs =>
    have hg : (fs ++ [f])[i + 1]? = some g := by
      have h0 : ((fs ++ [f]).drop (i + 1))[0]? = some g := by rw [hdrop]; rfl
      rwa [getElem?_drop, Nat.add_zero] at h0
    have hgs : (fs ++ [f]).drop (i + 1 + 1) = gs := by
      rw [← drop_drop, hdrop]
      rfl
    rw [hdrop, flatten_cons] at hrest
    cases g with
    | nil =>
      -- only the newest file may be empty, and behind it is nothing
      exfalso
      by_cases hlast : i + 1 < fs.length
      · rw [getElem?_append_left hlast] at hg
        exact hlay.inner_ne [] (mem_of_getElem? hg) rfl
      · rw [drop_eq_nil_of_le (by simp; omega)] at hgs
        subst hgs
        simp at hrest
    | cons z ys =>
      rw [cons_append] at hrest
      injection hrest with hz hrest
      subst hz
      exact ⟨ys, hg, by rw [hgs]; exact hrest⟩

/-- The next record is read, unless it is too long. -/
theorem readRecord_remaining (hlay : Layout d items fs f) (hw : Agrees writer items (fs ++ [f]))
    (hat : ReaderAt reader writer items (fs ++ [f]) i xs ys)
    (hrest : remaining (fs ++ [f]) i ys = y :: zs) (hmem : y.len ≤ mem) :
    if y.len < 2 ^ 31 + 4 then
      ∃ reader' i' xs' ys', binlogReadRecord d writer mem reader = (.record y.toBytes, reader') ∧
        ReaderAt reader' writer items (fs ++ [f]) i' (xs' ++ [y]) ys' ∧
        remaining (fs ++ [f]) i' ys' = zs
    else (binlogReadRecord d writer mem reader).1 = .error := by
  have hrec := isRecord_toBytes y
  have hlen := y.toBytes_length
  rw [← hlen] at hmem ⊢
  cases ys with
  | nil =>
    obtain ⟨ys', hnext, hzs⟩ := hlay.next_of_remaining hrest
    have hfile := hat.file_eq
    rw [append_nil] at hfile
    have hread := readRecord_whole_next hlay.rawLog hw.abs_eq hrec hmem
      (map_image_getElem? hfile) hat.at_byte (map_image_getElem? hnext)
      (by rw [image_cons]; exact prefix_append _ _)
    split at hread
    · next hsmall =>
        rw [if_pos hsmall]
        obtain ⟨reader', hread, hat'⟩ := hread
        refine ⟨reader', i + 1, [], ys', hread, ⟨hnext, ?_⟩, hzs⟩
        simpa [image] using hat'
    · next hlarge =>
        rw [if_neg hlarge]
        exact hread
  | cons z ys' =>
    unfold remaining at hrest
    rw [cons_append] at hrest
    injection hrest with hz hzs
    subst hz
    have hread := readRecord_whole hlay.rawLog hw.abs_eq hrec hmem
      (map_image_getElem? hat.file_eq) hat.at_byte (by
        rw [(image_around xs ys' z).1, drop_left]
        exact prefix_append _ _)
    split at hread
    · next hsmall =>
        rw [if_pos hsmall]
        obtain ⟨reader', hread, hat'⟩ := hread
        refine ⟨reader', i, xs, ys', hread, ⟨by rw [hat.file_eq]; simp, ?_⟩, hzs⟩
        rwa [image_concat_length, ← hlen]
    · next hlarge =>
        rw [if_neg hlarge]
        exact hread

/-- **Reading to the end**: a reader at a boundary returns all records behind
it, and then 0. -/
theorem returns_remaining (hlay : Layout d items fs f) (hw : Agrees writer items (fs ++ [f]))
    (zs : List BinlogRecord) (hzs : ∀ z ∈ zs, z.len ≤ mem ∧ z.len < 2 ^ 31 + 4) :
    ∀ {reader : BlReader} {i : Nat} {xs ys : List BinlogRecord},
      ReaderAt reader writer items (fs ++ [f]) i xs ys → remaining (fs ++ [f]) i ys = zs →
        Returns d writer mem reader (zs.map BinlogRecord.toBytes) := by
  induction zs with
  | nil =>
    intro reader i xs ys hat hrest
    obtain ⟨rfl, hflat⟩ := append_eq_nil_iff.mp hrest
    obtain ⟨_, _, _, hread, _⟩ := readRecord_eof mem hlay hat hflat
    rw [map_nil, Returns, hread]
  | cons z zs ih =>
    intro reader i xs ys hat hrest
    obtain ⟨hmem, hsmall⟩ := hzs z mem_cons_self
    have hread := readRecord_remaining hlay hw hat hrest hmem
    rw [if_pos hsmall] at hread
    obtain ⟨reader', i', xs', ys', hread, hat', hrest'⟩ := hread
    have hih := ih (fun x hx => hzs x (mem_cons_of_mem _ hx)) hat' hrest'
    rw [map_cons, Returns, hread]
    exact ⟨rfl, hih⟩

/-! ## §4. Opening a reader at a boundary. -/

variable {recs : List BinlogRecord}

theorem image_take_lt {k k' : Nat} (hk : k < k') (hk' : k' ≤ recs.length) :
    (image (recs.take k)).length < (image (recs.take k')).length := by
  have hsplit : recs.take k' = recs.take k ++ (recs.drop k).take (k' - k) := by
    rw [← take_add, Nat.add_sub_cancel' hk.le]
  have hne : (recs.drop k).take (k' - k) ≠ [] := by
    intro h
    have := congrArg List.length h
    rw [length_take, length_drop, length_nil] at this
    omega
  have hpos := image_length_pos hne
  simp only [headerSize] at hpos
  rw [hsplit, image_append, length_append]
  omega

theorem le_of_image_take_le (recs : List BinlogRecord) {k k' : Nat} (hk : k ≤ recs.length)
    (h : (image (recs.take k)).length ≤ (image (recs.take k')).length) : k ≤ k' := by
  by_contra hlt
  have := image_take_lt (Nat.lt_of_not_le hlt) hk
  omega

theorem flatten_boundary {files : List (List BinlogRecord)} {k : Nat}
    (hi : files[i]? = some g) (hlow : (files.take i).flatten.length ≤ k)
    (hhigh : k ≤ (files.take (i + 1)).flatten.length) :
    ∃ xs ys, g = xs ++ ys ∧ files.flatten.take k = (files.take i).flatten ++ xs ∧
      remaining files i ys = files.flatten.drop k := by
  obtain ⟨hlt, hget⟩ := List.getElem?_eq_some_iff.mp hi
  have hflat := flatten_split hlt
  rw [hget] at hflat
  have hglen : k - (files.take i).flatten.length ≤ g.length := by
    rw [take_add_one, hi, Option.toList_some, List.flatten_append, length_append] at hhigh
    simp at hhigh
    simp
    omega
  refine ⟨g.take (k - (files.take i).flatten.length), g.drop (k - (files.take i).flatten.length),
    (take_append_drop _ g).symm, ?_, ?_⟩
  · rw [hflat, take_append, take_of_length_le hlow, take_append_of_le_length hglen]
  · rw [hflat, drop_append, drop_of_length_le hlow, nil_append, drop_append_of_le_length hglen]
    rfl

theorem flatten_take_flatten (files : List (List BinlogRecord)) (j : Nat) :
    files.flatten.take (files.take j).flatten.length = (files.take j).flatten := by
  have hsplit : files.flatten = (files.take j).flatten ++ (files.drop j).flatten := by
    rw [← List.flatten_append, take_append_drop]
  rw [hsplit]
  exact take_left' rfl

theorem flatten_take_length_le (files : List (List BinlogRecord)) (j : Nat) :
    (files.take j).flatten.length ≤ files.flatten.length := by
  have h := congrArg List.length (flatten_take_flatten files j)
  rw [length_take] at h
  omega

/-- A reader opened between two records stands between them. -/
theorem readerInit_boundary (hlay : Layout d items fs f) (hw : Agrees writer items (fs ++ [f]))
    (hrecs : (fs ++ [f]).flatten = recs) {k : Nat} (hk : k ≤ recs.length) :
    ∃ reader i xs ys, binlogReaderInitByoffset d (UInt64.ofNat (image (recs.take k)).length) writer
        = some (d, reader) ∧
      ReaderAt reader writer items (fs ++ [f]) i xs ys ∧
      remaining (fs ++ [f]) i ys = recs.drop k := by
  have hindex : readerIndex d writer = some ⟨items⟩ := by
    cases writer with
    | none => exact hlay.load
    | some w =>
      show some w.index = _
      rw [← (hw w rfl).1]
  have htotal := hlay.total_lt
  have hlelen : (image (recs.take k)).length ≤ (image recs).length := by
    conv_rhs => rw [← take_append_drop k recs, image_append, length_append]
    exact Nat.le_add_right _ _
  rw [hrecs] at htotal
  have hoff : (UInt64.ofNat (image (recs.take k)).length).toNat
      = (image (recs.take k)).length := by
    rw [UInt64.toNat_ofNat']
    omega
  obtain ⟨reader, i, hinit, hi, hlow, hhigh, hat⟩ := hlay.rawLog.readerInit hindex
    (UInt64.ofNat (image (recs.take k)).length)
  rw [length_map] at hi hhigh
  rw [flatten_take_map_image, hoff] at hlow hat
  rw [flatten_take_map_image, hoff] at hhigh
  obtain ⟨g, hg⟩ : ∃ g, (fs ++ [f])[i]? = some g := ⟨_, getElem?_eq_getElem hi⟩
  -- file `i` starts at or before the boundary, and the next one behind it
  have hlow' : ((fs ++ [f]).take i).flatten.length ≤ k := by
    apply le_of_image_take_le recs
    · rw [← hrecs]
      exact flatten_take_length_le _ _
    · rwa [← hrecs, flatten_take_flatten, hrecs]
  have hhigh' : k ≤ ((fs ++ [f]).take (i + 1)).flatten.length := by
    by_cases hlast : i + 1 < (fs ++ [f]).length
    · apply le_of_image_take_le recs hk
      rw [← hrecs, flatten_take_flatten, hrecs]
      exact (hhigh hlast).le
    · rw [take_of_length_le (by omega), hrecs]
      exact hk
  obtain ⟨xs, ys, rfl, hboundary, hrem⟩ := flatten_boundary hg hlow' hhigh'
  refine ⟨reader, i, xs, ys, hinit, ⟨hg, ?_⟩, by rw [hrem, hrecs]⟩
  have hsize := hlay.size_lt _ (mem_of_getElem? hg)
  rw [image_append, length_append] at hsize
  rw [hrecs] at hboundary
  rwa [hboundary, image_append, length_append, Nat.add_sub_cancel_left,
    Nat.mod_eq_of_lt (by omega)] at hat

end Read

end Mile.Binlog
