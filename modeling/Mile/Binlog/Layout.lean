/-
  Mile.Binlog.Layout
  ──────────────────
  **THE LAYOUT OF THE BINLOG ON DISK.**

  The binlog stands for one list of records, cut into files: file `i` holds the image of its
  records, item `i` the total size of all earlier files, and only the newest file may be empty.
-/
import Mile.Binlog.Writer

namespace Mile.Binlog

open Lib List Function

/-! ## §1. The relation. -/

/-- Directory and index items represent the files `fs`, oldest first, and the
newest file `f`. -/
structure Layout (d : Disk) (items : List FileItem) (fs : List (List BinlogRecord))
    (f : List BinlogRecord) : Prop where
  count_lt : fs.length + 1 < 2 ^ 31
  log_eq : ∀ i, d.log i = ((fs ++ [f])[i]?).map image
  inner_ne : ∀ g ∈ fs, g ≠ []
  size_lt : ∀ g ∈ fs ++ [f], (image g).length < 2 ^ 32
  /-- One item for each file; a fresh directory has an empty file without an
  item. -/
  items_eq : (items = [] ∧ fs = [] ∧ f = []) ∨ items.length = fs.length + 1
  suffix_eq : ∀ i (it : FileItem), items[i]? = some it → it.suffix.toNat = i
  /-- An item's offset is the total size of all earlier files. -/
  offset_eq : ∀ i (it : FileItem), items[i]? = some it →
    it.absOffset.toNat = (image (fs.take i).flatten).length
  index_eq : d.index = indexText items

/-- The writer stands at the end of the newest file. -/
structure LogInv (s : LogState) (fs : List (List BinlogRecord)) (f : List BinlogRecord) : Prop
    extends Layout s.disk s.writer.index.items fs f where
  fd_eq : s.writer.fd.toNat = fs.length
  abs_eq : s.writer.absOffset.toNat = (image (fs ++ [f]).flatten).length
  written_eq : (fs ++ [f]).flatten = s.written

theorem image_flatten_le :
    ∀ gs : List (List BinlogRecord), (∀ g ∈ gs, (image g).length < 2 ^ 32) →
      (image gs.flatten).length ≤ gs.length * 2 ^ 32
  | [], _ => by simp
  | g :: gs, h => by
    have hg := h g mem_cons_self
    have ih := image_flatten_le gs (fun x hx => h x (mem_cons_of_mem _ hx))
    rw [flatten_cons, image_append, length_append, length_cons]
    omega

section Facts

variable {d : Disk} {items : List FileItem} {fs : List (List BinlogRecord)}
  {f : List BinlogRecord}

section

variable (h : Layout d items fs f)

include h

theorem Layout.total_lt : (image (fs ++ [f]).flatten).length < 2 ^ 63 := by
  have hle := image_flatten_le (fs ++ [f]) h.size_lt
  have hcount := h.count_lt
  rw [length_append, length_singleton] at hle
  omega

theorem Layout.length_lt : items.length < 2 ^ 31 := by
  have hcount := h.count_lt
  rcases h.items_eq with ⟨rfl, _⟩ | hlen
  · simp
  · omega

theorem Layout.items_length (hne : items ≠ []) : items.length = fs.length + 1 := by
  rcases h.items_eq with ⟨he, _⟩ | hlen
  · exact absurd he hne
  · exact hlen

theorem Layout.fresh (hempty : items = []) : fs = [] ∧ f = [] := by
  rcases h.items_eq with ⟨_, hfs⟩ | hlen
  · exact hfs
  · rw [hempty] at hlen
    simp at hlen

end

theorem image_files_length (fs : List (List BinlogRecord)) (f : List BinlogRecord) :
    (image (fs ++ [f]).flatten).length = (image fs.flatten).length + (image f).length := by
  simp [image]

theorem image_take_le (i : Nat) :
    (image (fs.take i).flatten).length ≤ (image (fs ++ [f]).flatten).length := by
  conv_rhs => rw [← take_append_drop i fs]
  rw [append_assoc, List.flatten_append, image_append, length_append]
  exact Nat.le_add_right _ _

variable (h : Layout d items fs f)

include h

theorem Layout.load : loadIndexFile d.index = some ⟨items⟩ := by
  rw [h.index_eq]
  apply loadIndexFile_indexText
  intro it hit
  obtain ⟨i, hi⟩ := mem_iff_getElem?.mp hit
  rw [h.offset_eq i it hi]
  exact (image_take_le i).trans_lt h.total_lt

theorem Layout.last_item (hne : items ≠ []) :
    ((⟨items⟩ : BinlogIndex).item (⟨items⟩ : BinlogIndex).last).suffix.toNat = fs.length ∧
      ((⟨items⟩ : BinlogIndex).item (⟨items⟩ : BinlogIndex).last).absOffset.toNat
        = (image fs.flatten).length := by
  have hlt : items.length < 2 ^ 32 := h.length_lt.trans (by decide)
  have hlen := h.items_length hne
  have hget : items[fs.length]? =
      some ((⟨items⟩ : BinlogIndex).item (⟨items⟩ : BinlogIndex).last) := by
    rw [← item_last hlt hne, getLast?_eq_getElem?]
    congr 1
    show fs.length = items.length - 1
    omega
  refine ⟨h.suffix_eq _ _ hget, ?_⟩
  rw [h.offset_eq _ _ hget, take_length]

theorem Layout.last_eq_noItem_iff : (⟨items⟩ : BinlogIndex).last = noItem ↔ items = [] :=
  Binlog.last_eq_noItem_iff (h.length_lt.trans (by decide))

theorem Layout.sum_size (n : Nat) :
    ((List.range n).map d.size).sum = (image ((fs ++ [f]).take n).flatten).length := by
  induction n with
  | zero => rfl
  | succ n ih =>
    have hsize : d.size n = (image ((fs ++ [f])[n]?.toList).flatten).length := by
      rw [Disk.size, h.log_eq]
      cases (fs ++ [f])[n]? with
      | none => rfl
      | some g => simp
    rw [range_succ, map_append, sum_append, ih, take_add_one,
      List.flatten_append, image_append, length_append, ← hsize]
    simp

theorem Layout.log_newest : d.log fs.length = some (image f) := by
  rw [h.log_eq]
  simp

end Facts

/-! ## §2. The three changes. -/

theorem openCreate_of_exists {d : Disk} {i : Nat} {b : Bytes} (h : d.log i = some b) :
    d.openCreate i = d := by
  have hlog : update d.log i (some ((d.log i).getD [])) = d.log := by
    rw [Function.update_eq_self_iff, h]
    rfl
  simp only [Disk.openCreate, hlog]

section Changes

variable {s : LogState} {fs : List (List BinlogRecord)} {f : List BinlogRecord}

/-- A record is appended to the last file. -/
theorem LogInv.append (h : LogInv s fs f) (hne : s.writer.index.items ≠ [])
    {r : BinlogRecord} (hroom : (image f).length + r.len < 2 ^ 32) :
    LogInv
      { disk := s.disk.append s.writer.fd.toNat r.toBytes
        writer := { s.writer with absOffset := s.writer.absOffset + UInt64.ofNat r.len }
        written := s.written ++ [r] } fs (f ++ [r]) where
  count_lt := h.count_lt
  log_eq := by
    intro i
    -- only the newest file changes
    show update s.disk.log s.writer.fd.toNat _ i = _
    rw [h.fd_eq, h.log_newest]
    by_cases hi : i = fs.length
    · subst hi
      rw [update_self]
      simp [image]
    · rw [update_of_ne hi, h.log_eq i]
      rcases Nat.lt_or_gt_of_ne hi with hlt | hgt
      · rw [getElem?_append_left hlt, getElem?_append_left hlt]
      · rw [getElem?_eq_none (by simp; omega), getElem?_eq_none (by simp; omega)]
  inner_ne := h.inner_ne
  size_lt := by
    intro g hg
    rcases mem_append.mp hg with hg | hg
    · exact h.size_lt g (mem_append_left _ hg)
    · rw [mem_singleton.mp hg, image_append, length_append]
      simpa [image] using hroom
  items_eq := .inr (h.items_length hne)
  suffix_eq := h.suffix_eq
  offset_eq := h.offset_eq
  index_eq := h.index_eq
  fd_eq := h.fd_eq
  abs_eq := by
    have htotal := h.total_lt
    have hlen := r.len_bounds.2
    show (s.writer.absOffset + UInt64.ofNat r.len).toNat = _
    rw [UInt64.toNat_add, UInt64.toNat_ofNat', h.abs_eq]
    -- the total stays far below 2 ^ 64, so the counter does not wrap
    have hgrow : (image (fs ++ [f ++ [r]]).flatten).length
        = (image (fs ++ [f]).flatten).length + r.len := by
      simp [image, List.flatten_append]
      omega
    rw [hgrow]
    omega
  written_eq := by
    show (fs ++ [f ++ [r]]).flatten = s.written ++ [r]
    rw [← h.written_eq]
    simp

/-- The first item of the index is written. -/
theorem LogInv.rotate_first (h : LogInv s fs f) (hempty : s.writer.index.items = [])
    (time : UInt32) :
    LogInv
      { s with
        disk := { s.disk with index := s.disk.index ++ itemLine ⟨time, 0, 0⟩ }
        writer := { s.writer with index := addItemArray s.writer.index ⟨time, 0, 0⟩ } } fs f := by
  have hitems : (addItemArray s.writer.index ⟨time, 0, 0⟩).items = [⟨time, 0, 0⟩] := by
    simp [addItemArray, hempty]
  obtain ⟨rfl, rfl⟩ := h.fresh hempty
  exact
    { count_lt := h.count_lt
      log_eq := h.log_eq
      inner_ne := h.inner_ne
      size_lt := h.size_lt
      items_eq := .inr (by rw [hitems]; rfl)
      suffix_eq := by
        intro i it hit
        rw [hitems] at hit
        cases i with
        | zero => cases hit; rfl
        | succ i => simp at hit
      offset_eq := by
        intro i it hit
        rw [hitems] at hit
        cases i with
        | zero => cases hit; rfl
        | succ i => simp at hit
      index_eq := by
        rw [hitems]
        show s.disk.index ++ _ = _
        rw [h.index_eq, hempty]
        simp [indexText]
      fd_eq := h.fd_eq
      abs_eq := h.abs_eq
      written_eq := h.written_eq }

/-- A file is closed, and the next one gets its item. -/
theorem LogInv.rotate_next (h : LogInv s fs f) (hne : s.writer.index.items ≠ [])
    (hf : f ≠ []) (hcount : s.writer.index.items.length + 1 < 2 ^ 31) (time : UInt32) :
    let item : FileItem :=
      ⟨time, s.writer.absOffset, (s.writer.index.item s.writer.index.last).suffix + 1⟩
    LogInv
      { s with
        disk := ({ s.disk with index := s.disk.index ++ itemLine item } : Disk).openCreate
          item.suffix.toNat
        writer := { s.writer with index := addItemArray s.writer.index item, fd := item.suffix } }
      (fs ++ [f]) [] := by
  intro item
  have hlen := h.items_length hne
  -- suffixes count the files
  have hsuffix : item.suffix.toNat = fs.length + 1 := by
    have hlast := (h.last_item hne).1
    show ((s.writer.index.item s.writer.index.last).suffix + 1).toNat = _
    rw [UInt32.toNat_add, hlast]
    simp only [UInt32.toNat_one]
    omega
  have hitems : (addItemArray s.writer.index item).items = s.writer.index.items ++ [item] := rfl
  exact
    { count_lt := by rw [length_append, length_singleton]; omega
      log_eq := by
        intro i
        show update s.disk.log item.suffix.toNat _ i = _
        -- the file of the next suffix does not exist yet
        have hnone : s.disk.log (fs.length + 1) = none := by
          rw [h.log_eq, getElem?_eq_none (by simp)]
          rfl
        rw [hsuffix]
        by_cases hi : i = fs.length + 1
        · subst hi
          rw [update_self]
          show some ((s.disk.log (fs.length + 1)).getD []) = _
          rw [hnone, getElem?_append_right (by simp)]
          simp
        · rw [update_of_ne hi, h.log_eq i]
          by_cases hlt : i < (fs ++ [f]).length
          · rw [getElem?_append_left hlt]
          · rw [length_append, length_singleton] at hlt
            rw [getElem?_eq_none (by simp; omega), getElem?_eq_none (by simp; omega)]
      inner_ne := by
        intro g hg
        rcases mem_append.mp hg with hg | hg
        · exact h.inner_ne g hg
        · rw [mem_singleton.mp hg]
          exact hf
      size_lt := by
        intro g hg
        rcases mem_append.mp hg with hg | hg
        · exact h.size_lt g hg
        · rw [mem_singleton.mp hg]
          decide
      items_eq := .inr (by
        rw [hitems, length_append, length_append, hlen]
        rfl)
      suffix_eq := by
        intro i it hit
        rcases getElem?_concat_some.mp hit with hold | ⟨hi, rfl⟩
        · exact h.suffix_eq i it hold
        · rw [hi, hlen]
          exact hsuffix
      offset_eq := by
        intro i it hit
        rcases getElem?_concat_some.mp hit with hold | ⟨hi, rfl⟩
        · rw [h.offset_eq i it hold]
          have hi : i < s.writer.index.items.length := (List.getElem?_eq_some_iff.mp hold).1
          rw [take_append_of_le_length (by omega)]
        · -- the new file starts where the log ended
          rw [hi, hlen, take_of_length_le (by simp)]
          exact h.abs_eq
      index_eq := by
        show s.disk.index ++ itemLine item = _
        rw [hitems, h.index_eq]
        simp [indexText]
      fd_eq := by
        show item.suffix.toNat = _
        rw [hsuffix, length_append, length_singleton]
      abs_eq := by
        show s.writer.absOffset.toNat = _
        rw [h.abs_eq]
        simp
      written_eq := by
        show (fs ++ [f] ++ [[]]).flatten = s.written
        rw [← h.written_eq]
        simp }

end Changes

/-! ## §3. Opening a writer. -/

variable {fs : List (List BinlogRecord)} {f : List BinlogRecord} {s : LogState}

/-- A closed log is opened as it was. -/
theorem LogInv.reopen (h : LogInv s fs f) (maxSize : UInt32) (sync : Bool) :
    ∃ s', logOpen s.disk s.written maxSize sync = some s' ∧ LogInv s' fs f ∧
      s'.written = s.written ∧ s'.writer.index = s.writer.index := by
  set index : BinlogIndex := s.writer.index with hindex
  set item : FileItem := if index.last = noItem then default else index.item index.last with hitem
  -- the item names the newest file and where it starts
  have hfacts : item.suffix.toNat = fs.length ∧
      item.absOffset.toNat = (image fs.flatten).length := by
    by_cases hempty : index.items = []
    · have hno : index.last = noItem := h.last_eq_noItem_iff.mpr hempty
      rw [hitem, if_pos hno]
      obtain ⟨rfl, rfl⟩ := h.fresh hempty
      exact ⟨rfl, rfl⟩
    · rw [hitem, if_neg (fun hno => hempty (h.last_eq_noItem_iff.mp hno))]
      exact h.last_item hempty
  -- the newest file exists, so opening it changes nothing
  have hopen : s.disk.openCreate item.suffix.toNat = s.disk := by
    rw [hfacts.1]
    exact openCreate_of_exists h.log_newest
  have hsize : s.disk.size item.suffix.toNat = (image f).length := by
    rw [hfacts.1, Disk.size, h.log_newest]
    rfl
  have hload : loadIndexFile s.disk.index = some index := h.load
  have hinit : binlogWriterInit s.disk maxSize = some (s.disk,
      { maxSize := maxSize, fd := item.suffix, syncImmediately := false,
        absOffset := UInt64.ofNat (image f).length + item.absOffset, index := index }) := by
    simp only [binlogWriterInit, hload, Option.map_some, ← hitem, hopen, hsize]
  refine ⟨{ disk := s.disk, written := s.written,
            writer := { maxSize := maxSize, fd := item.suffix, syncImmediately := sync,
                        absOffset := UInt64.ofNat (image f).length + item.absOffset,
                        index := index } },
    by rw [logOpen, hinit]; rfl, ?_, rfl, rfl⟩
  have htotal := h.total_lt
  have hsum := image_files_length fs f
  exact
    { toLayout := h.toLayout
      fd_eq := hfacts.1
      abs_eq := by
        show (UInt64.ofNat (image f).length + item.absOffset).toNat = _
        rw [UInt64.toNat_add, UInt64.toNat_ofNat', hfacts.2]
        omega
      written_eq := h.written_eq }

/-- An empty directory gives an empty log. -/
theorem logOpen_empty (maxSize : UInt32) (sync : Bool) :
    ∃ s, logOpen Disk.empty [] maxSize sync = some s ∧ LogInv s [] [] ∧ s.written = [] ∧
      s.writer.index.items = [] := by
  have hload : loadIndexFile Disk.empty.index = some ⟨[]⟩ := by decide
  have hlast : (⟨[]⟩ : BinlogIndex).last = noItem := by decide
  have hinit : logOpen Disk.empty [] maxSize sync = some
      { disk := Disk.empty.openCreate 0, written := [],
        writer := { maxSize := maxSize, fd := 0, syncImmediately := sync, absOffset := 0,
                    index := ⟨[]⟩ } } := by
    simp only [logOpen, binlogWriterInit, hload, Option.map_some, if_pos hlast]
    rfl
  refine ⟨_, hinit, ?_, rfl, rfl⟩
  exact
    { count_lt := by decide
      log_eq := by
        intro i
        show update Disk.empty.log 0 _ i = _
        cases i with
        | zero => simp [Disk.empty, image]
        | succ i => simp [Disk.empty]
      inner_ne := by simp
      size_lt := by simp [image]
      items_eq := .inl ⟨rfl, rfl, rfl⟩
      suffix_eq := by intro i it hit; simp at hit
      offset_eq := by intro i it hit; simp at hit
      index_eq := rfl
      fd_eq := rfl
      abs_eq := rfl
      written_eq := rfl }

/-! ## §4. Clean writes. -/

/-- How much is written when the first EINTR or failure comes, if one comes
before all `count` elements are out. -/
def firstFault (count : Nat) : List WriteOutcome → Nat → Option Nat
  | [], _ => none
  | out :: outs, done =>
    if done < count then
      match out with
      | .wrote n => firstFault count outs (done + min n (count - done))
      | .eintr => some done
      | .fail => some done
    else none

abbrev Uninterrupted (count : Nat) (outs : List WriteOutcome) : Prop :=
  firstFault count outs 0 = none

abbrev NotTorn (count : Nat) (outs : List WriteOutcome) : Prop :=
  firstFault count outs 0 = none ∨ firstFault count outs 0 = some 0

/-- The switch to a new file is given up before it changes anything, or it
goes through, and then not from a file that is still empty. -/
abbrev CleanRotation (w : BlWriter) (env : WriteEnv) : Prop :=
  (w.index.last ≠ noItem ∧ w.syncImmediately = false ∧ env.fsync = false) ∨
    env.indexOpen = false ∨
    (Uninterrupted (itemLine (nextItem w env.now)).length env.indexWrites ∧
      w.index.items.length + 1 < 2 ^ 31 ∧
      (w.index.last ≠ noItem →
        env.logOpen = true ∧ (w.index.item w.index.last).absOffset.toNat < w.absOffset.toNat))

/-- A call of `binlog_write_record` that leaves no trace of a failure. -/
abbrev CleanWrite (w : BlWriter) (r : BinlogRecord) (env : WriteEnv) : Prop :=
  NotTorn r.len env.logWrites ∧ (needsNext w r.len → CleanRotation w env)

/-- Without a fault the whole buffer is written. -/
theorem whileWrite_uninterrupted {α : Type*} (buf : List α) (hlen : buf.length < 2 ^ 63) :
    ∀ (outs : List WriteOutcome) (done : Nat), done ≤ buf.length →
      firstFault buf.length outs done = none →
        whileWrite buf outs done = ((buf.length : Int), buf.drop done)
  | [], done, hdone, _ => by
    have hsize : toSsize buf.length = buf.length := by rw [toSsize, if_pos hlen]
    unfold whileWrite
    split
    · rw [hsize]
    · obtain rfl : done = buf.length := by omega
      rw [hsize, drop_length]
  | out :: outs, done, hdone, hfault => by
    unfold whileWrite
    unfold firstFault at hfault
    split
    · next hlt =>
        rw [if_pos hlt] at hfault
        cases out with
        | wrote n =>
          have ih := whileWrite_uninterrupted buf hlen outs
            (done + min n (buf.length - done)) (by omega) hfault
          simp only [ih, ← drop_drop, take_append_drop]
        | eintr => cases hfault
        | fail => cases hfault
    · obtain rfl : done = buf.length := by omega
      rw [toSsize, if_pos hlen, drop_length]

theorem le_of_firstFault {count : Nat} :
    ∀ {outs : List WriteOutcome} {done k : Nat}, firstFault count outs done = some k → done ≤ k
  | [], _, _, h => by cases h
  | out :: outs, done, k, h => by
    unfold firstFault at h
    split at h
    · cases out with
      | wrote n => exact (Nat.le_add_right _ _).trans (le_of_firstFault h)
      | eintr | fail => exact (Option.some.inj h).le
    · cases h

/-- A fault before the first byte leaves the file as it is. -/
theorem whileWrite_fault_zero {α : Type*} (buf : List α) (hlen : buf.length < 2 ^ 63) :
    ∀ outs : List WriteOutcome, firstFault buf.length outs 0 = some 0 →
      whileWrite buf outs 0 = (-1, [])
  | [], h => by cases h
  | out :: outs, h => by
    unfold firstFault at h
    unfold whileWrite
    split at h
    · next hlt =>
        rw [if_pos hlt]
        cases out with
        | wrote n =>
          -- a write of nothing: the loop goes on where it was
          have hzero : min n (buf.length - 0) = 0 := by
            have := le_of_firstFault h
            omega
          simp only [hzero] at h ⊢
          rw [whileWrite_fault_zero buf hlen outs h]
          rfl
        | eintr =>
          -- `done` becomes the largest `size_t`, which ends the loop
          have hdone : (0 + (2 ^ 64 - 1)) % 2 ^ 64 = 2 ^ 64 - 1 := by decide
          simp only [hdone]
          have hstop : ¬ (2 ^ 64 - 1 < buf.length) := by omega
          cases outs with
          | nil | cons o outs =>
            unfold whileWrite
            rw [if_neg hstop]
            rfl
        | fail => rfl
    · cases h

theorem toBytes_length_lt (r : BinlogRecord) : r.toBytes.length < 2 ^ 63 := by
  have hlen := r.len_bounds.2
  rw [BinlogRecord.toBytes_length]
  omega

theorem printU_length_le {n k : Nat} (hk : 0 < k) (hn : n < 10 ^ k) : (printU n).length ≤ k :=
  (Nat.length_toDigits_le_iff (by decide) hk).mpr hn

theorem itemLine_length_lt (item : FileItem) : (itemLine item).length < 2 ^ 63 := by
  have h1 := printU_length_le (n := item.time.toNat) (k := 10) (by decide)
    (item.time.toNat_lt.trans (by decide))
  have h2 := printU_length_le (n := item.absOffset.toNat) (k := 20) (by decide)
    (item.absOffset.toNat_lt.trans (by decide))
  have h3 := printU_length_le (n := item.suffix.toNat) (k := 10) (by decide)
    (item.suffix.toNat_lt.trans (by decide))
  simp only [itemLine, length_append, length_cons, length_nil]
  omega

theorem stamp_len (r : BinlogRecord) (now : UInt32) : (r.stamp now).len = r.len := rfl

section Write

variable {s : LogState} {fs : List (List BinlogRecord)} {f : List BinlogRecord} {env : WriteEnv}

theorem addFileItem_unopened (d : Disk) (index : BinlogIndex) (item : FileItem)
    (h : env.indexOpen = false) : addFileItem env d index item = (-1, d, index) := by
  simp [addFileItem, h]

theorem addFileItem_full (d : Disk) (index : BinlogIndex) {item : FileItem}
    (h : env.indexOpen = true)
    (hfull : Uninterrupted (itemLine item).length env.indexWrites) :
    addFileItem env d index item
      = (0, { d with index := d.index ++ itemLine item }, addItemArray index item) := by
  have hwrite := whileWrite_uninterrupted (itemLine item) (itemLine_length_lt item)
    env.indexWrites 0 (Nat.zero_le _) hfull
  have hnot : ¬ ((itemLine item).length : Int) < 0 := by omega
  simp only [addFileItem, h, if_true, hwrite, if_neg hnot, drop_zero]

def filesBefore (items : List FileItem) (fs : List (List BinlogRecord)) (f : List BinlogRecord) :
    List (List BinlogRecord) :=
  if items = [] then fs else fs ++ [f]

theorem Layout.filesBefore_length {d : Disk} {items : List FileItem} (h : Layout d items fs f) :
    (filesBefore items fs f).length = items.length := by
  unfold filesBefore
  split
  · next hempty =>
      rw [(h.fresh hempty).1, hempty]
      rfl
  · next hne => rw [h.items_length hne, length_append, length_singleton]

/-- The next file is begun, or the log stays as it is. -/
theorem LogInv.gotoNext (h : LogInv s fs f) (hclean : CleanRotation s.writer env) :
    let next := writerGotoNext env s.disk s.writer env.now
    (next.1 ≠ 0 ∧ next.2 = (s.disk, s.writer)) ∨
      (next.1 = 0 ∧
        next.2.2.index.items = s.writer.index.items ++ [nextItem s.writer env.now] ∧
        LogInv { s with disk := next.2.1, writer := next.2.2 }
          (filesBefore s.writer.index.items fs f) []) := by
  intro next
  have hnext : next = writerGotoNext env s.disk s.writer env.now := rfl
  unfold writerGotoNext at hnext
  -- given up at fsync, given up at opening the index, or carried through
  by_cases hsync : s.writer.index.last ≠ noItem ∧ s.writer.syncImmediately = false ∧
      env.fsync = false
  · rw [if_pos hsync] at hnext
    exact .inl (by simp [hnext])
  rw [if_neg hsync] at hnext
  by_cases hopen : env.indexOpen = false
  · simp only [addFileItem_unopened _ _ _ hopen] at hnext
    exact .inl (by simp [hnext])
  obtain ⟨hfull, hcount, hlog⟩ := (hclean.resolve_left hsync).resolve_left hopen
  rw [Bool.not_eq_false] at hopen
  right
  have hadd := addFileItem_full s.disk s.writer.index hopen hfull
  simp only [hadd, ne_eq, not_true_eq_false, if_false] at hnext
  by_cases hfirst : s.writer.index.last = noItem
  · have hempty : s.writer.index.items = [] := h.last_eq_noItem_iff.mp hfirst
    obtain ⟨rfl, rfl⟩ := h.fresh hempty
    rw [if_pos hfirst] at hnext
    simp only [filesBefore, if_pos hempty]
    simp only [nextItem, if_pos hfirst] at hnext ⊢
    rw [hnext]
    exact ⟨rfl, rfl, h.rotate_first hempty env.now⟩
  · have hne : s.writer.index.items ≠ [] := fun he => hfirst (h.last_eq_noItem_iff.mpr he)
    obtain ⟨hlopen, hlt⟩ := hlog hfirst
    -- the newest item starts before the end of the log
    have hf : f ≠ [] := by
      rintro rfl
      rw [(h.last_item hne).2, h.abs_eq] at hlt
      simp at hlt
    rw [if_neg hfirst, if_pos hlopen] at hnext
    simp only [filesBefore, if_neg hne]
    simp only [nextItem, if_neg hfirst] at hnext ⊢
    rw [hnext]
    exact ⟨rfl, rfl, h.rotate_next hne hf hcount env.now⟩

theorem LogInv.room (h : LogInv s fs f) {len : Nat} (hlen : len < 2 ^ 32)
    (hno : ¬ needsNext s.writer len) :
    s.writer.index.items ≠ [] ∧ (image f).length + len < 2 ^ 32 := by
  unfold needsNext at hno
  push Not at hno
  obtain ⟨hfirst, hfits⟩ := hno
  have hne : s.writer.index.items ≠ [] := fun he => hfirst (h.last_eq_noItem_iff.mpr he)
  refine ⟨hne, ?_⟩
  have hmax := s.writer.maxSize.toNat_lt
  have htotal := h.total_lt
  have hsum := image_files_length fs f
  have hlast : (s.writer.index.item s.writer.index.last).absOffset.toNat
      = (image fs.flatten).length := (h.last_item hne).2
  -- the code compares the new size of the file with max_size, a 32-bit value
  rw [UInt64.toNat_sub, UInt64.toNat_add, UInt64.toNat_ofNat', h.abs_eq, hlast] at hfits
  omega

/-- A write that is not torn appends the record or nothing. -/
theorem LogInv.writeTail (h : LogInv s fs f) (hne : s.writer.index.items ≠ [])
    {r : BinlogRecord} (hroom : (image f).length + r.len < 2 ^ 32) {outs : List WriteOutcome}
    (hwrite : NotTorn r.len outs) :
    let out := whileWrite r.toBytes outs 0
    let d' := s.disk.append s.writer.fd.toNat out.2
    (out.1 < 0 ∧ LogInv { s with disk := d' } fs f) ∨
      (¬ out.1 < 0 ∧ LogInv
        { disk := d'
          writer := { s.writer with absOffset := s.writer.absOffset + UInt64.ofNat r.len }
          written := s.written ++ [r] } fs (f ++ [r])) := by
  intro out d'
  rw [← BinlogRecord.toBytes_length] at hwrite
  -- everything gets out, or nothing
  rcases hwrite with hfull | hzero
  · right
    have hout : out = (((r.toBytes).length : Int), r.toBytes) :=
      whileWrite_uninterrupted r.toBytes (toBytes_length_lt r) outs 0 (Nat.zero_le _) hfull
    refine ⟨by rw [hout]; omega, ?_⟩
    have happ := h.append hne hroom
    rw [← show out.2 = r.toBytes by rw [hout]] at happ
    exact happ
  · left
    have hout : out = (-1, []) := whileWrite_fault_zero r.toBytes (toBytes_length_lt r) outs hzero
    have hbytes : (whileWrite r.toBytes outs 0).2 = [] := congrArg Prod.snd hout
    have hsame : d' = s.disk := by
      have hlog : update s.disk.log s.writer.fd.toNat
          (some ((s.disk.log s.writer.fd.toNat).getD [] ++ [])) = s.disk.log := by
        rw [Function.update_eq_self_iff, h.fd_eq, h.log_newest]
        simp
      show s.disk.append s.writer.fd.toNat (whileWrite r.toBytes outs 0).2 = _
      rw [hbytes]
      simp only [Disk.append, hlog]
    exact ⟨by rw [hout]; decide, by rw [hsame]; exact h⟩

/-- What a clean write of `r` makes of items and files: nothing, a record at
the end, or a new newest file that is empty or has the record. -/
def Grown (items items' : List FileItem) (fs fs' : List (List BinlogRecord))
    (f f' : List BinlogRecord) (r : BinlogRecord) : Prop :=
  (items' = items ∧ fs' = fs ∧ (f' = f ∨ f' = f ++ [r])) ∨
    ∃ it : FileItem, it.time = r.time ∧ items' = items ++ [it] ∧
      fs' = filesBefore items fs f ∧ (f' = [] ∨ f' = [r])

theorem nextItem_time (w : BlWriter) (time : UInt32) : (nextItem w time).time = time := by
  unfold nextItem
  split <;> rfl

/-- **A clean write keeps the invariant**, whether it succeeds or fails; when
it succeeds, the newest file is not empty. -/
theorem logWrite_inv (h : LogInv s fs f) {r : BinlogRecord} (hclean : CleanWrite s.writer r env) :
    ∃ fs' f', LogInv (logWrite s r env) fs' f' ∧
      Grown s.writer.index.items (logWrite s r env).writer.index.items fs fs' f f'
        (r.stamp env.now) ∧
      ((logWrite s r env).written ≠ s.written → f' ≠ []) := by
  have hlen := r.len_bounds.2
  unfold logWrite binlogWriteRecord
  by_cases hneed : needsNext s.writer (r.stamp env.now).len
  · simp only [if_pos hneed]
    rcases h.gotoNext (hclean.2 hneed) with ⟨hrc, hsame⟩ | ⟨hrc, hitems, h'⟩
    · simp only [if_pos hrc]
      exact ⟨fs, f, by simpa [hsame] using h, by simp [hsame, Grown], by simp⟩
    · -- a new file: the record is its first, or the file stays empty
      simp only [hrc, ne_eq, not_true_eq_false, if_false]
      have hgrown : ∀ f', (f' = [] ∨ f' = [r.stamp env.now]) →
          Grown s.writer.index.items (s.writer.index.items ++ [nextItem s.writer env.now])
            fs (filesBefore s.writer.index.items fs f) f f' (r.stamp env.now) :=
        fun f' hf' => .inr ⟨_, nextItem_time _ _, rfl, rfl, hf'⟩
      have htail := h'.writeTail (by rw [hitems]; simp) (r := r.stamp env.now)
        (by simpa [stamp_len] using hlen) hclean.1
      rcases htail with ⟨hneg, hinv⟩ | ⟨hneg, hinv⟩
      · refine ⟨_, [], by simpa [hneg] using hinv, ?_, by simp [hneg]⟩
        simpa [hneg, hitems] using hgrown [] (.inl rfl)
      · refine ⟨_, [r.stamp env.now], by simpa [hneg] using hinv, ?_, by simp⟩
        simpa [hneg, hitems] using hgrown [r.stamp env.now] (.inr rfl)
  · simp only [if_neg hneed, ne_eq, not_true_eq_false, if_false]
    obtain ⟨hne, hroom⟩ := h.room hlen hneed
    have htail := h.writeTail hne (r := r.stamp env.now) hroom hclean.1
    rcases htail with ⟨hneg, hinv⟩ | ⟨hneg, hinv⟩
    · exact ⟨fs, f, by simpa [hneg] using hinv, by simp [hneg, Grown], by simp [hneg]⟩
    · exact ⟨fs, f ++ [r.stamp env.now], by simpa [hneg] using hinv, by simp [hneg, Grown], by simp⟩

end Write

/-! ## §5. Runs of clean operations. -/

def CleanOp (s : LogState) : LogOp → Prop
  | .write r env => CleanWrite s.writer r env
  | .reopen _ _ => True

instance (s : LogState) : ∀ op, Decidable (CleanOp s op)
  | .write _ _ => inferInstanceAs (Decidable (CleanWrite _ _ _))
  | .reopen _ _ => isTrue trivial

theorem LogInv.step {op : LogOp} (h : LogInv s fs f) (hop : CleanOp s op) :
    ∃ s', logStep s op = some s' ∧ ∃ fs' f', LogInv s' fs' f' := by
  cases op with
  | write r env =>
    obtain ⟨fs', f', hinv, _⟩ := logWrite_inv h hop
    exact ⟨_, rfl, fs', f', hinv⟩
  | reopen maxSize sync =>
    obtain ⟨s', hs', hinv, _⟩ := h.reopen maxSize sync
    exact ⟨s', hs', fs, f, hinv⟩

theorem logRun_inv (ops : List LogOp) (h : LogInv s fs f) (hclean : Along logStep CleanOp s ops) :
    ∃ s', run logStep s ops = some s' ∧ ∃ fs' f', LogInv s' fs' f' := by
  refine Along.run_inv (fun _ s => ∃ fs f, LogInv s fs f) ?_ ops [] s ⟨fs, f, h⟩ hclean
  rintro _ s op ⟨fs, f, h⟩ hop
  exact h.step hop

end Mile.Binlog
