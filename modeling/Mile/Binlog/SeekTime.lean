/-
  Mile.Binlog.SeekTime
  ────────────────────
  **OPENING A READER BY TIME.**

  When record times never decrease, `binlog_reader_init_bytime` puts the reader in front of the
  first record that is not older than the given time.
-/
import Mile.Binlog.Refinement

namespace Mile.Binlog

open Lib Common List

/-! ## §1. Well-formed logs. -/

/-- The directory holds the records `recs`, laid out and indexed as the
writer does it; no file with an item is empty. -/
def WellFormedLog (d : Disk) (recs : List BinlogRecord) : Prop :=
  ∃ items fs f, Layout d items fs f ∧ (fs ++ [f]).flatten = recs ∧
    ItemTimes items (fs ++ [f]) ∧ (items ≠ [] → f ≠ [])

def TimesOrdered (recs : List BinlogRecord) : Prop :=
  recs.Pairwise (fun a b => a.time.toNat ≤ b.time.toNat)

/-- A record older than `time`. -/
def older (time : UInt32) (r : BinlogRecord) : Bool := r.time.toNat < time.toNat

/-! ## §2. Seeking. -/

section Seek

variable {d : Disk} {items : List FileItem} {fs : List (List BinlogRecord)}
  {f : List BinlogRecord} (time : UInt32)

/-- The reader stops at the first record that is not older. -/
theorem seekToTime_spec (hlay : Layout d items fs f) (zs : List BinlogRecord)
    (hzs : ∀ z ∈ zs, z.len ≤ mbSize) :
    ∀ {reader : BlReader} {i : Nat} {xs ys : List BinlogRecord} {fuel : Nat},
      ReaderAt reader none items (fs ++ [f]) i xs ys → remaining (fs ++ [f]) i ys = zs →
        zs.length < fuel →
          ∃ reader' i' xs' ys', seekToTime d time fuel reader = .at reader' ∧
            ReaderAt reader' none items (fs ++ [f]) i' xs' ys' ∧
            remaining (fs ++ [f]) i' ys' = zs.dropWhile (older time) := by
  have hw : Agrees none items (fs ++ [f]) := fun w hw => nomatch hw
  have hpool : mbSize ≤ mbSize * 10 ∧ mbSize < 2 ^ 31 + 4 := by decide
  induction zs with
  | nil =>
    intro reader i xs ys fuel hat hrest hfuel
    obtain ⟨rfl, hflat⟩ := append_eq_nil_iff.mp hrest
    obtain ⟨reader', i', xs', hread, hat', hflat'⟩ := readRecord_eof (mbSize * 10) hlay hat hflat
    obtain ⟨n, rfl⟩ : ∃ n, fuel = n + 1 := ⟨fuel - 1, by omega⟩
    refine ⟨reader', i', xs', [], ?_, hat', by rw [remaining, hflat']; rfl⟩
    rw [seekToTime, seekLoop, hread]
  | cons z zs ih =>
    intro reader i xs ys fuel hat hrest hfuel
    have hz := hzs z mem_cons_self
    have hread := readRecord_remaining hlay hw hat hrest
      (hz.trans hpool.1)
    rw [if_pos (Nat.lt_of_le_of_lt hz hpool.2)] at hread
    obtain ⟨reader', i', xs', ys', hread, hat', hrest'⟩ := hread
    obtain ⟨n, rfl⟩ : ∃ n, fuel = n + 1 := ⟨fuel - 1, by omega⟩
    by_cases hold : older time z = true
    · -- an older record: read on
      have hlt : z.time.toNat < time.toNat := of_decide_eq_true hold
      obtain ⟨r, j, us, vs, hseek, hatr, hrem⟩ :=
        ih (fun x hx => hzs x (mem_cons_of_mem _ hx)) hat' hrest'
          (Nat.lt_of_succ_lt_succ hfuel)
      refine ⟨r, j, us, vs, ?_, hatr, by rw [hrem, dropWhile_cons_of_pos hold]⟩
      rw [seekToTime, seekLoop, hread]
      simp only [recTime_toBytes]
      rw [if_neg (by omega)]
      exact hseek
    · -- the record looked for: one step back
      have hle : time.toNat ≤ z.time.toNat := by
        simpa [older] using hold
      refine ⟨reader'.goBack z.len, i', xs', z :: ys', ?_, ⟨?_, ?_⟩, ?_⟩
      · rw [seekToTime, seekLoop, hread]
        simp only [recTime_toBytes, recLen_toBytes]
        rw [if_pos hle]
      · rw [hat'.file_eq, append_assoc]
        rfl
      · have hback := hat'.at_byte
        rw [image_concat_length] at hback
        exact hback.goBack
      · rw [dropWhile_cons_of_neg hold, remaining, cons_append, ← hrest']
        rfl

/-- Files in front of the one that is opened are older. -/
theorem Layout.scan_time (hlay : Layout d items fs f) (hne : items ≠ []) (hf : f ≠ [])
    (htimes : ItemTimes items (fs ++ [f])) (hord : TimesOrdered (fs ++ [f]).flatten) :
    ∀ r ∈ ((fs ++ [f]).take (scanItems ⟨items⟩ (fun it => it.time < time))).flatten,
      older time r = true := by
  have hlen := hlay.items_length hne
  obtain ⟨first, hfirst⟩ : ∃ first, items[0]? = some first :=
    ⟨_, getElem?_eq_getElem (by omega)⟩
  by_cases hp : decide (first.time < time) = true
  · obtain ⟨⟨it, hit, hpit⟩, _⟩ :=
      scanItems_spec (p := fun it => decide (it.time < time)) hfirst hp
    set i := scanItems ⟨items⟩ (fun it => it.time < time)
    have hi : i < items.length := (List.getElem?_eq_some_iff.mp hit).1
    have hilt : i < (fs ++ [f]).length := by
      rw [length_append, length_singleton]
      omega
    -- the first record of file `i` is older, and everything before is not younger
    obtain ⟨q, qs, hfile⟩ : ∃ q qs, (fs ++ [f])[i] = q :: qs := by
      apply exists_cons_of_ne_nil
      rcases mem_append.mp (getElem_mem hilt) with hmem | hmem
      · exact hlay.inner_ne _ hmem
      · rw [mem_singleton.mp hmem]
        exact hf
    have hq : it.time = q.time := by
      apply htimes i it q hit
      rw [getElem?_eq_getElem hilt, hfile]
      rfl
    intro r hr
    rw [TimesOrdered, flatten_split hilt, hfile, pairwise_append] at hord
    have hle := hord.2.2 r hr q (by simp)
    rw [decide_eq_true_eq, UInt32.lt_iff_toNat_lt, hq] at hpit
    exact decide_eq_true (by omega)
  · have hzero : scanItems ⟨items⟩ (fun it => it.time < time) = 0 := by
      cases items with
      | nil => rfl
      | cons a as =>
        obtain rfl : a = first := by simpa using hfirst
        show ((a :: as).takeWhile (fun it => decide (it.time < time))).length - 1 = 0
        simp only [takeWhile_cons, hp]
        rfl
    rw [hzero]
    simp

/-- **A reader opened by time** stands in front of the first record that is
not older. -/
theorem initBytime_position {recs : List BinlogRecord} (hlog : WellFormedLog d recs)
    (hord : TimesOrdered recs) (hlen : ∀ r ∈ recs, r.len ≤ mbSize) {fuel : Nat}
    (hfuel : recs.length < fuel) :
    ∃ items fs f reader i xs ys, Layout d items fs f ∧
      binlogReaderInitBytime d time fuel = (d, .at reader) ∧
      ReaderAt reader none items (fs ++ [f]) i xs ys ∧
      remaining (fs ++ [f]) i ys = recs.dropWhile (older time) := by
  obtain ⟨items, fs, f, hlay, rfl, htimes, hnewest⟩ := hlog
  have hw : ∀ w : BlWriter, (none : Option BlWriter) = some w → w.index.items = items :=
    fun w hw => nomatch hw
  -- an empty log: the reader starts in file 0 and seeks to its end
  by_cases hempty : items = []
  · obtain ⟨rfl, rfl⟩ := hlay.fresh hempty
    have hlog : d.log 0 = some [] := hlay.log_newest
    have hzero : (0 : UInt32).toNat = 0 := rfl
    have hat : ReaderAt
        { fd := 0, suffix := 0, offset := 0, indexItemPos := 0, index := ⟨items⟩ } none items
        ([] ++ [[]]) 0 [] [] := ⟨rfl, rfl, rfl, rfl, rfl, rfl⟩
    obtain ⟨reader, i, xs, ys, hseek, hat', hrem⟩ :=
      seekToTime_spec time hlay [] (by simp) hat rfl hfuel
    refine ⟨items, [], [], reader, i, xs, ys, hlay, ?_, hat', hrem⟩
    simp only [binlogReaderInitBytime, readerIndex, hlay.load,
      if_pos (hlay.last_eq_noItem_iff.mpr hempty), hzero, openCreate_of_exists hlog, hseek]
  · have hyes : (⟨items⟩ : BinlogIndex).last ≠ noItem :=
      fun h => hempty (hlay.last_eq_noItem_iff.mp h)
    -- the scan picks the file, `seek_to_time` the record in it
    have hold := hlay.scan_time time hempty (hnewest hempty) htimes hord
    have hscan : scanItems ⟨items⟩ (fun it => it.time < time) < items.length := by
      have hle := (takeWhile_sublist (l := items)
        (fun it : FileItem => decide (it.time < time))).length_le
      have hpos := length_pos_of_ne_nil hempty
      show (items.takeWhile (fun it => decide (it.time < time))).length - 1 < items.length
      omega
    set i := scanItems ⟨items⟩ (fun it => it.time < time) with hi
    have hilt : i < (fs ++ [f]).length := by
      have := hlay.items_length hempty
      rw [length_append, length_singleton]
      omega
    have hfile : (fs ++ [f])[i]? = some ([] ++ (fs ++ [f])[i]) := getElem?_eq_getElem hilt
    have hbyte := hlay.rawLog.atItem (getElem?_eq_getElem hscan) hw 0
    have hat : ReaderAt (readerAtItem ⟨items⟩ i 0) none items (fs ++ [f]) i [] (fs ++ [f])[i] :=
      ⟨hfile, hbyte⟩
    have hrem : remaining (fs ++ [f]) i (fs ++ [f])[i] = ((fs ++ [f]).drop i).flatten := by
      rw [remaining, drop_eq_getElem_cons hilt, flatten_cons]
    -- what stands in the files before is older and would be dropped anyway
    have hdrop : (fs ++ [f]).flatten.dropWhile (older time)
        = ((fs ++ [f]).drop i).flatten.dropWhile (older time) := by
      conv_lhs => rw [← take_append_drop i (fs ++ [f])]
      rw [List.flatten_append, dropWhile_append_of_pos hold]
    have hsub : ∀ z ∈ ((fs ++ [f]).drop i).flatten, z.len ≤ mbSize := by
      intro z hz
      obtain ⟨g, hg, hzg⟩ := mem_flatten.mp hz
      exact hlen z (mem_flatten.mpr ⟨g, mem_of_mem_drop hg, hzg⟩)
    have hshort : ((fs ++ [f]).drop i).flatten.length ≤ (fs ++ [f]).flatten.length := by
      conv_rhs => rw [← take_append_drop i (fs ++ [f]), List.flatten_append, length_append]
      omega
    obtain ⟨reader, j, xs, ys, hseek, hat', hrem'⟩ :=
      seekToTime_spec time hlay _ hsub hat hrem (Nat.lt_of_le_of_lt hshort hfuel)
    have hexists : d.log i = some (image (fs ++ [f])[i]) := by
      rw [hlay.log_eq, hfile]
      rfl
    refine ⟨items, fs, f, reader, j, xs, ys, hlay, ?_, hat', by rw [hrem', hdrop]⟩
    simp only [binlogReaderInitBytime, readerIndex, hlay.load, if_neg hyes, ← hi]
    rw [hbyte.fd_eq, openCreate_of_exists hexists, hseek]

end Seek

/-! ## §3. The writer's logs. -/

/-- **Every run of successful operations leaves a well-formed log** of the
records written. -/
theorem run_wellFormed (maxSize : UInt32) (sync : Bool) (ops : List LogOp)
    (hok : ∀ op ∈ ops, op.Succeeds)
    (hfiles : ∀ s, logOpen Disk.empty [] maxSize sync = some s → Along logStep FewFiles s ops) :
    ∃ s, logRun maxSize sync ops = some s ∧
      WellFormedLog s.disk (ops.flatMap LogOp.records) := by
  obtain ⟨s, fs, f, hrun, hinv, hwritten⟩ := logRun_of_succeeds hok hfiles
  exact ⟨s, hrun, s.writer.index.items, fs, f, hinv.toLayout, hwritten ▸ hinv.written_eq,
    hinv.times, hinv.newest_ne⟩

end Mile.Binlog
