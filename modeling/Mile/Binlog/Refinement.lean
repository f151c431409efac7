/-
  Mile.Binlog.Refinement
  ──────────────────────
  **THE BINLOG IS ONE APPEND-ONLY SEQUENCE OF RECORDS.**

  Runs of a writer, with reopening, against readers.
-/
import Mile.Binlog.ReadBack

namespace Mile.Binlog

open Lib List

/-! ## §1. Writes that succeed. -/

def WriteOutcome.isWrote : WriteOutcome → Bool
  | .wrote _ => true
  | _ => false

def WriteEnv.Succeeds (env : WriteEnv) : Prop :=
  env.fsync = true ∧ env.indexOpen = true ∧ env.logOpen = true ∧
    (∀ o ∈ env.indexWrites, o.isWrote = true) ∧ (∀ o ∈ env.logWrites, o.isWrote = true)

instance (env : WriteEnv) : Decidable env.Succeeds := inferInstanceAs (Decidable (_ ∧ _))

def LogOp.Succeeds : LogOp → Prop
  | .write _ env => env.Succeeds
  | .reopen _ _ => True

instance : ∀ op : LogOp, Decidable op.Succeeds
  | .write _ env => inferInstanceAs (Decidable env.Succeeds)
  | .reopen _ _ => isTrue trivial

def LogOp.records : LogOp → List BinlogRecord
  | .write r env => [r.stamp env.now]
  | .reopen _ _ => []

theorem firstFault_of_wrote {count : Nat} :
    ∀ {outs : List WriteOutcome} {done : Nat}, (∀ o ∈ outs, o.isWrote = true) →
      firstFault count outs done = none
  | [], _, _ => rfl
  | out :: outs, done, h => by
    unfold firstFault
    split
    · cases out with
      | wrote n => exact firstFault_of_wrote (fun o ho => h o (mem_cons_of_mem _ ho))
      | eintr | fail => exact absurd (h _ mem_cons_self) (by decide)
    · rfl

section Succeeds

variable {s : LogState} {fs : List (List BinlogRecord)} {f : List BinlogRecord} {env : WriteEnv}
  {r : BinlogRecord}

/-- A write that succeeds adds its record. -/
theorem logWrite_written (henv : env.Succeeds) :
    (logWrite s r env).written = s.written ++ [r.stamp env.now] := by
  obtain ⟨hfsync, hopen, hlog, hiw, hlw⟩ := henv
  have hfull : Uninterrupted (itemLine (nextItem s.writer env.now)).length env.indexWrites :=
    firstFault_of_wrote hiw
  have hrec := whileWrite_uninterrupted (r.stamp env.now).toBytes (toBytes_length_lt _)
    env.logWrites 0 (Nat.zero_le _) (firstFault_of_wrote hlw)
  -- a switch to the next file goes through as well
  have hnext : (writerGotoNext env s.disk s.writer env.now).1 = 0 := by
    simp only [writerGotoNext, addFileItem_full s.disk s.writer.index hopen hfull, hfsync, hlog]
    simp only [Bool.true_eq_false, and_false, if_false, ne_eq, not_true_eq_false, if_true]
    split <;> rfl
  have hnot : ¬ (whileWrite (r.stamp env.now).toBytes env.logWrites 0).1 < 0 := by
    rw [hrec]
    omega
  have hzero : (if needsNext s.writer (r.stamp env.now).len then
      writerGotoNext env s.disk s.writer env.now else (0, s.disk, s.writer)).1 = 0 := by
    split
    · exact hnext
    · rfl
  simp only [logWrite, binlogWriteRecord, hzero, ne_eq, not_true_eq_false, if_false, if_neg hnot,
    if_true]

theorem cleanWrite_of_succeeds (h : LogInv s fs f) (hf : s.writer.index.items ≠ [] → f ≠ [])
    (henv : env.Succeeds) (hcount : s.writer.index.items.length + 1 < 2 ^ 31) :
    CleanWrite s.writer r env := by
  obtain ⟨_, _, hlog, hiw, hlw⟩ := henv
  refine ⟨.inl (firstFault_of_wrote hlw),
    fun _ => .inr (.inr ⟨firstFault_of_wrote hiw, hcount, ?_⟩)⟩
  intro hlast
  have hne : s.writer.index.items ≠ [] := fun he => hlast (h.last_eq_noItem_iff.mpr he)
  refine ⟨hlog, ?_⟩
  have hpos := image_length_pos (hf hne)
  have hlastoff : (s.writer.index.item s.writer.index.last).absOffset.toNat
      = (image fs.flatten).length := (h.last_item hne).2
  simp only [headerSize] at hpos
  rw [hlastoff, h.abs_eq, image_files_length]
  omega

end Succeeds

abbrev FewFiles (s : LogState) (_ : LogOp) : Prop := s.writer.index.items.length + 1 < 2 ^ 31

def ItemTimes (items : List FileItem) (files : List (List BinlogRecord)) : Prop :=
  ∀ (i : Nat) (it : FileItem) (r : BinlogRecord), items[i]? = some it →
    files[i]?.bind List.head? = some r → it.time = r.time

/-- The invariant of runs without a failure: no file with an item is empty,
and items have the times of their first records. -/
structure CalmInv (s : LogState) (fs : List (List BinlogRecord)) (f : List BinlogRecord) : Prop
    extends LogInv s fs f where
  newest_ne : s.writer.index.items ≠ [] → f ≠ []
  times : ItemTimes s.writer.index.items (fs ++ [f])

variable {fs : List (List BinlogRecord)} {f : List BinlogRecord}

/-- Items keep the time of the first record of their file. -/
theorem ItemTimes.grown {d : Disk} {items items' : List FileItem} {fs' : List (List BinlogRecord)}
    {f' : List BinlogRecord} {r : BinlogRecord} (hlay : Layout d items fs f)
    (h : ItemTimes items (fs ++ [f])) (hne : items ≠ [] → f ≠ [])
    (hgrown : Grown items items' fs fs' f f' r) (hf' : f' ≠ []) :
    ItemTimes items' (fs' ++ [f']) := by
  intro i it q hit hhead
  rcases hgrown with ⟨rfl, rfl, hfile⟩ | ⟨it', htime, rfl, rfl, hfile⟩
  · rcases hfile with rfl | rfl
    · exact h i it q hit hhead
    · -- the newest file keeps its first record
      have hf : f ≠ [] := hne (by rintro rfl; simp at hit)
      have hsame : ((fs' ++ [f ++ [r]])[i]?).bind List.head?
          = ((fs' ++ [f])[i]?).bind List.head? := by
        by_cases hi : i < fs'.length
        · rw [getElem?_append_left hi, getElem?_append_left hi]
        · rw [getElem?_append_right (by omega), getElem?_append_right (by omega)]
          obtain ⟨a, as, rfl⟩ := exists_cons_of_ne_nil hf
          cases i - fs'.length with
          | zero => rfl
          | succ k => rfl
      exact h i it q hit (hsame ▸ hhead)
  · -- a new file with this record as its first
    obtain rfl := hfile.resolve_left hf'
    obtain ⟨g, hg, hq⟩ := Option.bind_eq_some_iff.mp hhead
    have hlen := hlay.filesBefore_length
    rcases getElem?_concat_some.mp hit with hold | ⟨hi, rfl⟩
    · have hi := (List.getElem?_eq_some_iff.mp hold).1
      rcases getElem?_concat_some.mp hg with hg | ⟨hi', -⟩
      · have hitems : items ≠ [] := by
          rintro rfl
          simp at hi
        rw [filesBefore, if_neg hitems] at hg
        exact h i it q hold (by rw [hg]; exact hq)
      · omega
    · rcases getElem?_concat_some.mp hg with hg | ⟨-, rfl⟩
      · have hi' := (List.getElem?_eq_some_iff.mp hg).1
        omega
      · cases hq
        exact htime

/-- **One successful operation** writes its records and keeps the layout. -/
theorem CalmInv.step {s : LogState} {op : LogOp} (h : CalmInv s fs f) (hop : op.Succeeds)
    (hfew : FewFiles s op) :
    ∃ s' fs' f', logStep s op = some s' ∧ CalmInv s' fs' f' ∧
      s'.written = s.written ++ op.records := by
  cases op with
  | write r env =>
    obtain ⟨fs', f', hinv, hgrown, hne⟩ := logWrite_inv h.toLogInv
      (cleanWrite_of_succeeds (r := r) h.toLogInv h.newest_ne hop hfew)
    have hwritten := logWrite_written (s := s) (r := r) hop
    have hf' : f' ≠ [] := hne (by rw [hwritten]; simp)
    have hcalm : CalmInv (logWrite s r env) fs' f' :=
      { toLogInv := hinv
        newest_ne := fun _ => hf'
        times := h.times.grown h.toLayout h.newest_ne hgrown hf' }
    exact ⟨_, fs', f', rfl, hcalm, hwritten⟩
  | reopen maxSize sync =>
    obtain ⟨s', hs', hinv, hwritten, hindex⟩ := h.reopen maxSize sync
    have hcalm : CalmInv s' fs f :=
      { toLogInv := hinv
        newest_ne := by rw [hindex]; exact h.newest_ne
        times := by rw [hindex]; exact h.times }
    exact ⟨s', fs, f, hs', hcalm, by rw [hwritten]; exact (append_nil _).symm⟩

variable {ops : List LogOp}

/-- **A run of successful operations** writes every record and keeps the
layout. -/
theorem run_of_succeeds {s : LogState} (h : CalmInv s fs f) (hops : ∀ op ∈ ops, op.Succeeds)
    (hfew : Along logStep FewFiles s ops) :
    ∃ s', run logStep s ops = some s' ∧ (∃ fs' f', CalmInv s' fs' f') ∧
      s'.written = s.written ++ ops.flatMap LogOp.records := by
  refine Along.run_inv (fun done t => (∃ gs g, CalmInv t gs g) ∧
    t.written = s.written ++ done.flatMap LogOp.records) ?_ ops [] s ⟨⟨fs, f, h⟩, by simp⟩
    ((along_of_forall s hops).and hfew)
  rintro done t op ⟨⟨gs, g, ht⟩, hdone⟩ ⟨hop, hroom⟩
  obtain ⟨t', gs', g', hstep, ht', hwritten⟩ := ht.step hop hroom
  refine ⟨t', hstep, ⟨gs', g', ht'⟩, ?_⟩
  rw [hwritten, hdone, flatMap_append, append_assoc, flatMap_singleton]

theorem logRun_of_succeeds {maxSize : UInt32} {sync : Bool} (hok : ∀ op ∈ ops, op.Succeeds)
    (hfiles : ∀ s, logOpen Disk.empty [] maxSize sync = some s → Along logStep FewFiles s ops) :
    ∃ s fs f, logRun maxSize sync ops = some s ∧ CalmInv s fs f ∧
      s.written = ops.flatMap LogOp.records := by
  obtain ⟨s₀, hopen, hinv₀, hwritten₀, hitems₀⟩ := logOpen_empty maxSize sync
  have hcalm : CalmInv s₀ [] [] :=
    { toLogInv := hinv₀
      newest_ne := fun h => absurd hitems₀ h
      times := by intro i it r hit; rw [hitems₀] at hit; simp at hit }
  obtain ⟨s, hrun, ⟨fs, f, hinv⟩, hwritten⟩ := run_of_succeeds hcalm hok (hfiles s₀ hopen)
  rw [hwritten₀, nil_append] at hwritten
  exact ⟨s, fs, f, by rw [logRun, hopen]; exact hrun, hinv, hwritten⟩

/-! ## §2. Readers of a state. -/

/-- The writers a reader can be opened with: none, or the one of the
state. -/
def ReaderOf (s : LogState) (writer : Option BlWriter) : Prop :=
  writer = none ∨ writer = some s.writer

/-- A reader opened at the absolute offset `off` returns exactly `recs`, and
then 0. -/
def ReadsFrom (d : Disk) (writer : Option BlWriter) (mem off : Nat) (recs : List BinlogRecord) :
    Prop :=
  ∃ d' reader, binlogReaderInitByoffset d (UInt64.ofNat off) writer = some (d', reader) ∧
    Returns d' writer mem reader (recs.map BinlogRecord.toBytes)

section Readers

variable {s : LogState} {fs : List (List BinlogRecord)} {f : List BinlogRecord}
  {writer : Option BlWriter} {mem k : Nat} (h : LogInv s fs f)

include h

theorem LogInv.agrees (hw : ReaderOf s writer) :
    Agrees writer s.writer.index.items (fs ++ [f]) := by
  intro w hsome
  rcases hw with rfl | rfl
  · cases hsome
  · cases hsome
    exact ⟨rfl, h.abs_eq⟩

theorem LogInv.reads (hw : ReaderOf s writer) (hk : k ≤ s.written.length)
    (hlen : ∀ r ∈ s.written, r.len ≤ mem ∧ r.len < 2 ^ 31 + 4) :
    ReadsFrom s.disk writer mem (image (s.written.take k)).length (s.written.drop k) := by
  obtain ⟨reader, i, xs, ys, hinit, hat, hrem⟩ :=
    readerInit_boundary h.toLayout (h.agrees hw) h.written_eq hk
  exact ⟨s.disk, reader, hinit, returns_remaining h.toLayout (h.agrees hw) _
    (fun z hz => hlen z (mem_of_mem_drop hz)) hat hrem⟩

theorem LogInv.read_large (hw : ReaderOf s writer) {y : BinlogRecord} {zs : List BinlogRecord}
    (hk : k ≤ s.written.length) (hy : s.written.drop k = y :: zs) (hmem : y.len ≤ mem)
    (hlarge : 2 ^ 31 + 4 ≤ y.len) :
    ∃ reader, binlogReaderInitByoffset s.disk
        (UInt64.ofNat (image (s.written.take k)).length) writer = some (s.disk, reader) ∧
      (binlogReadRecord s.disk writer mem reader).1 = .error := by
  obtain ⟨reader, i, xs, ys, hinit, hat, hrem⟩ :=
    readerInit_boundary h.toLayout (h.agrees hw) h.written_eq hk
  have hread := readRecord_remaining h.toLayout (h.agrees hw) hat (hrem.trans hy) hmem
  rw [if_neg (by omega)] at hread
  exact ⟨reader, hinit, hread⟩

theorem LogInv.abs_eq_sum {n : Nat} (hn : s.writer.index.items.length ≤ n) :
    s.writer.absOffset.toNat = ((List.range n).map s.disk.size).sum := by
  rw [h.abs_eq, h.sum_size]
  by_cases hempty : s.writer.index.items = []
  · obtain ⟨rfl, rfl⟩ := h.fresh hempty
    cases n with
    -- before the first write there is no file, and every size is 0
    | zero => rfl
    | succ n => simp
  · have hlen := h.items_length hempty
    rw [take_of_length_le (by simp; omega)]

theorem LogInv.offset_eq_sum {i : Nat} {it : FileItem} (hit : s.writer.index.items[i]? = some it) :
    it.absOffset.toNat = ((List.range i).map s.disk.size).sum := by
  have hi : i < s.writer.index.items.length := (List.getElem?_eq_some_iff.mp hit).1
  have hlen := h.items_length (by rintro he; rw [he] at hi; simp at hi)
  rw [h.offset_eq i it hit, h.sum_size, take_append_of_le_length (by omega)]

end Readers

/-! ## §3. Refinement. -/

/-- **The rotated binlog refines one append-only record sequence**, exactly
when no record is 2 ^ 31 + 4 bytes or longer: item offsets and the writer's
offset are sums of file sizes, and a reader at any record boundary, with or
without the writer, returns the records written from there on, and then 0. -/
theorem binlog_refines_sequence (maxSize : UInt32) (sync : Bool) (ops : List LogOp) (mem : Nat)
    (hok : ∀ op ∈ ops, op.Succeeds)
    (hfiles : ∀ s, logOpen Disk.empty [] maxSize sync = some s → Along logStep FewFiles s ops)
    (hmem : ∀ r ∈ ops.flatMap LogOp.records, r.len ≤ mem) :
    ∃ s, logRun maxSize sync ops = some s ∧ s.written = ops.flatMap LogOp.records ∧
      (∀ i it, s.writer.index.items[i]? = some it →
        it.absOffset.toNat = ((List.range i).map s.disk.size).sum) ∧
      (∀ n, s.writer.index.items.length ≤ n →
        s.writer.absOffset.toNat = ((List.range n).map s.disk.size).sum) ∧
      ((∀ k, k ≤ s.written.length → ∀ writer, ReaderOf s writer →
          ReadsFrom s.disk writer mem (image (s.written.take k)).length (s.written.drop k)) ↔
        ∀ r ∈ s.written, r.len < 2 ^ 31 + 4) := by
  obtain ⟨s, fs, f, hrun, hcalm, hwritten⟩ := logRun_of_succeeds hok hfiles
  have hinv := hcalm.toLogInv
  refine ⟨s, hrun, hwritten, fun i it => hinv.offset_eq_sum, fun n => hinv.abs_eq_sum, ?_, ?_⟩
  · -- a longer record would stop the reader opened right before it
    intro hreads r hr
    by_contra hlarge
    obtain ⟨k, hk, hget⟩ := getElem_of_mem hr
    have hdrop : s.written.drop k = r :: s.written.drop (k + 1) := by
      rw [drop_eq_getElem_cons hk, hget]
    obtain ⟨reader, hinit, herr⟩ := hinv.read_large (.inl rfl : ReaderOf s none) hk.le hdrop
      (hmem r (hwritten ▸ hr)) (by omega)
    obtain ⟨d', reader', hinit', hret⟩ := hreads k hk.le none (.inl rfl)
    rw [hinit] at hinit'
    cases hinit'
    rw [hdrop, map_cons, Returns, herr] at hret
    exact absurd hret.1 (by simp)
  · intro hsmall k hk writer hw
    exact hinv.reads hw hk (fun r hr => ⟨hmem r (hwritten ▸ hr), hsmall r hr⟩)

/-- An environment in which everything succeeds at time `now`, in single
writes. -/
def calmEnv (now : UInt32) : WriteEnv :=
  { now := now, fsync := true, indexOpen := true, indexWrites := [], logOpen := true,
    logWrites := [] }

/-- Two files of up to 40 bytes, with a short write and the writer reopened
in between. -/
theorem binlog_refines_sequence_two_files :
    ∃ s, logRun 40 false
        [.write (bareRecord .confirmOk) (calmEnv 5), .write (bareRecord .confirmOk) { calmEnv 6 with
          logWrites := [.wrote 7] }, .reopen 40 true, .write (bareRecord .confirmOk) (calmEnv 9)] =
        some s ∧
      s.written = [(bareRecord .confirmOk).stamp 5, (bareRecord .confirmOk).stamp 6,
        (bareRecord .confirmOk).stamp 9] ∧
      (∀ i it, s.writer.index.items[i]? = some it →
        it.absOffset.toNat = ((List.range i).map s.disk.size).sum) ∧
      (∀ n, s.writer.index.items.length ≤ n →
        s.writer.absOffset.toNat = ((List.range n).map s.disk.size).sum) ∧
      ((∀ k, k ≤ s.written.length → ∀ writer, ReaderOf s writer →
          ReadsFrom s.disk writer 4096 (image (s.written.take k)).length (s.written.drop k)) ↔
        ∀ r ∈ s.written, r.len < 2 ^ 31 + 4) :=
  binlog_refines_sequence 40 false
    [.write (bareRecord .confirmOk) (calmEnv 5), .write (bareRecord .confirmOk) { calmEnv 6 with
      logWrites := [.wrote 7] }, .reopen 40 true, .write (bareRecord .confirmOk) (calmEnv 9)] 4096
    (by decide) (by
      intro s hs
      obtain rfl := Option.some.inj hs
      decide) (by decide)

/-- An operation record with `n` zero bytes of data. -/
def zeroRecord (n : Nat) (h : headerSize + n < 2 ^ 32) : BinlogRecord :=
  { time := 0, sid := 0, docid := 0, flag := 0, opCode := OperationCode.insert.toByte,
    data := replicate n 0, len_lt := by rwa [length_replicate] }

theorem zeroRecord_len (n : Nat) (h : headerSize + n < 2 ^ 32) :
    (zeroRecord n h).len = headerSize + n := by
  simp only [BinlogRecord.len, zeroRecord, length_replicate]

/-- A record above 2 GiB is written and cannot be read. -/
theorem zeroRecord_not_read (n : Nat) (h : headerSize + n < 2 ^ 32)
    (hlarge : 2 ^ 31 + 4 ≤ headerSize + n) :
    ∃ s, logRun 0 false [.write (zeroRecord n h) (calmEnv 7)] = some s ∧
      s.written = [(zeroRecord n h).stamp 7] ∧
      ∃ d' reader, binlogReaderInitByoffset s.disk 0 none = some (d', reader) ∧
        (binlogReadRecord d' none (2 ^ 32) reader).1 = .error := by
  have hsucc : ∀ op ∈ [LogOp.write (zeroRecord n h) (calmEnv 7)], op.Succeeds := by
    intro op hop
    rw [mem_singleton.mp hop]
    exact (by decide : (calmEnv 7).Succeeds)
  have hfew : ∀ s, logOpen Disk.empty [] 0 false = some s →
      Along logStep FewFiles s [.write (zeroRecord n h) (calmEnv 7)] := by
    intro s hs
    obtain rfl := Option.some.inj hs
    have hroom : (0 : Nat) + 1 < 2 ^ 31 := by decide
    exact ⟨hroom, fun _ _ => trivial⟩
  obtain ⟨s, fs, f, hrun, hinv, hwritten⟩ := logRun_of_succeeds hsucc hfew
  have hone : s.written = [(zeroRecord n h).stamp 7] := hwritten
  have hlen : ((zeroRecord n h).stamp 7).len = headerSize + n := zeroRecord_len n h
  obtain ⟨reader, hinit, herr⟩ := hinv.toLogInv.read_large (k := 0)
    (.inl rfl : ReaderOf s none) (Nat.zero_le _) (by rw [hone]; rfl)
    (show _ ≤ 2 ^ 32 by omega) (by omega)
  exact ⟨s, hrun, hone, s.disk, reader, hinit, herr⟩

/-- A record of 2 ^ 31 + 4 bytes is written without an error, and a reader
opened at the start of the log returns -1 instead of it. -/
theorem long_record_not_read :
    ∃ s, logRun 0 false [.write (zeroRecord 2147483636 (by decide)) (calmEnv 7)] = some s ∧
      s.written = [(zeroRecord 2147483636 (by decide)).stamp 7] ∧
      ∃ d' reader, binlogReaderInitByoffset s.disk 0 none = some (d', reader) ∧
        (binlogReadRecord d' none (2 ^ 32) reader).1 = .error :=
  zeroRecord_not_read 2147483636 (by decide) (by decide)

/-! ## §4. Failing calls. -/

theorem mem_written_of_step {s s' : LogState} {op : LogOp} (hstep : logStep s op = some s')
    {r : BinlogRecord} (hr : r ∈ s'.written) : r ∈ s.written ∨ r ∈ op.records := by
  cases op with
  | write q env =>
    cases hstep
    simp only [logWrite] at hr
    split at hr
    · exact mem_append.mp hr
    · exact .inl hr
  | reopen maxSize sync =>
    obtain ⟨_, _, rfl⟩ := Option.map_eq_some_iff.mp hstep
    exact .inl hr

theorem mem_written_of_run {s s' : LogState} (hrun : run logStep s ops = some s') :
    ∀ r ∈ s'.written, r ∈ s.written ∨ r ∈ ops.flatMap LogOp.records := by
  refine Along.inv_of_run
    (fun done t => ∀ r ∈ t.written, r ∈ s.written ∨ r ∈ done.flatMap LogOp.records) [] ?_
    (fun r hr => .inl hr) (along_of_forall s fun _ _ => trivial) hrun
  intro done t op t' _ hold _ hstep r hr
  rw [flatMap_append, mem_append, flatMap_singleton, ← or_assoc]
  exact (mem_written_of_step hstep hr).imp_left (hold r)

/-- **Clean failures do no damage**: when every failing call of a run is
clean, the writer's offset is the size of the log and a reader of the whole
log returns exactly the records whose call returned 0, in order. -/
theorem clean_run_reads_back (maxSize : UInt32) (sync : Bool) (ops : List LogOp) (mem : Nat)
    (hclean : ∀ s, logOpen Disk.empty [] maxSize sync = some s → Along logStep CleanOp s ops)
    (hlen : ∀ r ∈ ops.flatMap LogOp.records, r.len ≤ mem ∧ r.len < 2 ^ 31 + 4) :
    ∃ s, logRun maxSize sync ops = some s ∧
      (∀ n, s.writer.index.items.length ≤ n →
        s.writer.absOffset.toNat = ((List.range n).map s.disk.size).sum) ∧
      ∀ writer, ReaderOf s writer → ReadsFrom s.disk writer mem 0 s.written := by
  obtain ⟨s₀, hopen, hinv₀, hwritten₀, _⟩ := logOpen_empty maxSize sync
  obtain ⟨s, hrun, fs, f, hinv⟩ := logRun_inv ops hinv₀ (hclean s₀ hopen)
  have hsmall : ∀ r ∈ s.written, r.len ≤ mem ∧ r.len < 2 ^ 31 + 4 := by
    intro r hr
    rcases mem_written_of_run hrun r hr with hold | hnew
    · rw [hwritten₀] at hold
      cases hold
    · exact hlen r hnew
  refine ⟨s, by rw [logRun, hopen]; exact hrun, fun n => hinv.abs_eq_sum, fun writer hw => ?_⟩
  have hread := hinv.reads (k := 0) hw (Nat.zero_le _) hsmall
  rwa [take_zero, image_nil, length_nil, drop_zero] at hread

/-- A failed write that wrote nothing, a switch given up at fsync, a short
write and a switch that goes through. -/
theorem clean_run_reads_back_some_failures :
    ∃ s, logRun 40 false
        [.write (bareRecord .confirmOk) { calmEnv 5 with logWrites := [.eintr] },
         .write (bareRecord .confirmOk) { calmEnv 6 with logWrites := [.wrote 7, .wrote 0] },
         .write (bareRecord .confirmOk) (calmEnv 7),
         .write (bareRecord .confirmOk) { calmEnv 8 with fsync := false },
         .write (bareRecord .confirmOk) { calmEnv 9 with logWrites := [.fail] },
         .write (bareRecord .confirmOk) (calmEnv 9)] = some s ∧
      (∀ n, s.writer.index.items.length ≤ n →
        s.writer.absOffset.toNat = ((List.range n).map s.disk.size).sum) ∧
      ∀ writer, ReaderOf s writer → ReadsFrom s.disk writer 4096 0 s.written :=
  clean_run_reads_back 40 false _ 4096
    (by
      intro s hs
      obtain rfl := Option.some.inj hs
      decide)
    (by decide)

/-- A write that fails after four bytes damages the next record: that one's
call returns 0, the log is four bytes longer than the writer's offset, and
the reader returns sixteen bytes that were never written as a record, and
then 0. -/
theorem torn_write_damages_next_record :
    ∃ s, logRun 100 false
        [.write (bareRecord .confirmOk) { calmEnv 5 with logWrites := [.wrote 4, .fail] },
         .write (bareRecord .confirmOk) (calmEnv 6)] = some s ∧
      s.written = [(bareRecord .confirmOk).stamp 6] ∧
      s.writer.absOffset.toNat = 16 ∧ s.disk.size 0 = 20 ∧
      ∃ d' reader, binlogReaderInitByoffset s.disk 0 (some s.writer) = some (d', reader) ∧
        Returns d' (some s.writer) 4096 reader
          [[16, 0, 0, 0, 16, 0, 0, 0, 6, 0, 0, 0, 0, 0, 0, 0]] ∧
        ((bareRecord .confirmOk).stamp 6).toBytes =
          [16, 0, 0, 0, 6, 0, 0, 0, 0, 0, 0, 0, 0, 0, 0, 0] :=
  ⟨_, rfl, by decide, by decide, by decide, _, _, rfl, by decide, by decide⟩

end Mile.Binlog
