/-
  Mile.DocDb.Recover
  ──────────────────
  **CRASH RECOVERY FROM THE BINLOG.**

  `db_recover_data` opens the log at the time of the last checkpoint and executes every operation
  followed by its CONFIRM_OK.  One that the opening separates from its CONFIRM_OK is left out.
-/
import Mile.Binlog.SeekTime
import Mile.Slave.Exactness

namespace Mile.DocDb

open Lib Common Binlog List

/-! ## §1. The code. -/

/-- The database as recovery uses it; the first argument is the list of
records executed so far. -/
structure RecoverEnv where
  /-- `db->max_segment_num`. -/
  maxSegmentNum : Nat
  /-- `db_get_table_instance(table) != NULL`. -/
  hasTable : List Bytes → Bytes → Bool
  /-- `table_recover(table, sid, docid)`. -/
  tableRecover : List Bytes → Bytes → Nat → Nat → Int
  /-- `db_execute_binrecord(rec)`. -/
  execute : List Bytes → Bytes → Int

/-- `struct recover_check_param_t`: the segments truncated so far, and table
and segment of the last insert. -/
structure RecoverCheck where
  lastTable : Option Bytes
  lastSid : Nat
  truncated : List (Bytes × Nat)
  deriving Repr, DecidableEq

/-- The `recover_check_param_t` that `db_recover_data` starts with. -/
def RecoverCheck.init : RecoverCheck := { lastTable := none, lastSid := 0, truncated := [] }

def insertTable (rec : Bytes) : Bytes :=
  (((recData rec).drop 1).take (leAt (recData rec) 0 1)).takeWhile (· ≠ 0)

/-- `db_recover_check`. -/
def dbRecoverCheck (env : RecoverEnv) (executed : List Bytes) (param : RecoverCheck)
    (rec : Bytes) : Int × RecoverCheck :=
  if recOpCode rec ≠ OperationCode.insert.toByte.toNat then (0, param)
  -- only inserts are checked
  else if env.maxSegmentNum ≤ recSid rec then (-1, param)
  else if param.lastTable = some (insertTable rec) ∧ recSid rec = param.lastSid then (0, param)
  else
    let param := { param with lastTable := some (insertTable rec), lastSid := recSid rec }
    if (insertTable rec, recSid rec) ∈ param.truncated ∨
        env.hasTable executed (insertTable rec) = false then (0, param)
    else
      let rc := env.tableRecover executed (insertTable rec) (recSid rec) (recDocid rec)
      (rc, if rc = 0 then
             { param with truncated := (insertTable rec, recSid rec) :: param.truncated }
           else param)

/-- The inner loop of `db_recover_data`, one record: the next `pre_rec`, and
the operation to execute.  The outer loop starts again without a
`pre_rec`. -/
def recoverPair (preRec : Option Bytes) (rec : Bytes) : Option Bytes × Option Bytes :=
  match preRec with
  | none => (some rec, none)
  | some p =>
    if isConfirmRecord p then (some rec, none)
    else if !isConfirmRecord rec then
      -- previous record not confirmed
      (some rec, none)
    else if recOpCode rec = OperationCode.confirmFail.toByte.toNat then (some rec, none)
    else (none, some p)

/-- The results of `db_execute_binrecord` that recovery goes on after. -/
def tolerated (ret : Int) : Bool :=
  ret = ResultCode.success.value || ret = ResultCode.errorInsertRepeat.value ||
    ret = ResultCode.errorPkConflict.value || ret = ResultCode.errorOnlyFilterSupport.value ||
    ret = ResultCode.errorIndexFieldCompressed.value

/-- How the loop ends: with the value of `ret`, the reader and everything
executed. -/
inductive RecoverEnd where
  | finished (ret : Int) (reader : BlReader) (executed : List Bytes)
  /-- A record did not fit the pool. -/
  | fault
  | outOfFuel
  deriving Repr, DecidableEq

/-- The loops of `db_recover_data`, over the function that reads a record. -/
def recoverLoop (read : BlReader → ReadResult × BlReader) (env : RecoverEnv) :
    Nat → BlReader → Option Bytes → RecoverCheck → List Bytes → RecoverEnd
  | 0, _, _, _, _ => .outOfFuel
  | fuel + 1, reader, preRec, param, executed =>
    match read reader with
    | (.error, reader) => .finished (-1) reader executed
    -- the 0 of `binlog_read_record` is also the code of success
    | (.eof, reader) => .finished 0 reader executed
    | (.fault, _) => .fault
    | (.record rec, reader) =>
      let out := recoverPair preRec rec
      match out.2 with
      | none => recoverLoop read env fuel reader out.1 param executed
      | some p =>
        let check := dbRecoverCheck env executed param p
        if check.1 ≠ 0 then .finished check.1 reader executed
        else
          let ret := env.execute executed p
          if tolerated ret then
            recoverLoop read env fuel reader out.1 check.2 (executed ++ [p])
          else .finished ret reader (executed ++ [p])

/-- What `db_recover_data` comes to. -/
inductive RecoverResult where
  | done (ret : Int) (executed : List Bytes)
  | fault
  | outOfFuel
  deriving Repr, DecidableEq

/-- `db_recover_data`. -/
def dbRecoverData (env : RecoverEnv) (d : Disk) (lastCheckpoint : UInt32) (fuel : Nat) :
    RecoverResult :=
  match binlogReaderInitBytime d lastCheckpoint fuel with
  | (_, .failed) => .done ResultCode.errorBinlogFailed.value []
  | (_, .fault) => .fault
  | (_, .outOfFuel) => .outOfFuel
  | (d, .at reader) =>
    match recoverLoop (binlogReadRecord d none mbSize) env fuel reader none .init [] with
    | .fault => .fault
    | .outOfFuel => .outOfFuel
    | .finished ret reader executed =>
      if ret = ResultCode.success.value ∧ binlogIsReadAll d reader = false then
        .done ResultCode.errorBinlogFailed.value executed
      else .done ret executed

/-- The operations that `db_recover_check` lets through, one after the other: those in front of the
first one it refuses. -/
def unrefused (env : RecoverEnv) : RecoverCheck → List Bytes → List Bytes → List Bytes
  | _, _, [] => []
  | param, executed, p :: ps =>
    let check := dbRecoverCheck env executed param p
    if check.1 ≠ 0 then [] else p :: unrefused env check.2 (executed ++ [p]) ps

/-! ## §2. What is to be recovered. -/

/-- The operations immediately followed by a CONFIRM_OK that is not older
than `time`. -/
def confirmedSince (time : UInt32) : List BinlogRecord → List BinlogRecord
  | a :: b :: rest =>
    if a.role = .op ∧ b.role = .ok ∧ older time b = false then
      a :: confirmedSince time (b :: rest)
    else confirmedSince time (b :: rest)
  | _ => []

theorem confirmedSince_cons_cons (time : UInt32) (a b : BinlogRecord) (rest : List BinlogRecord) :
    confirmedSince time (a :: b :: rest)
      = if a.role = .op ∧ b.role = .ok ∧ older time b = false then
          a :: confirmedSince time (b :: rest)
        else confirmedSince time (b :: rest) := rfl

variable {time : UInt32}

theorem confirmedSince_of_young :
    ∀ recs : List BinlogRecord, (∀ r ∈ recs, older time r = false) →
      confirmedSince time recs = confirmed BinlogRecord.role recs
  | [], _ => rfl
  | [_], _ => rfl
  | a :: b :: rest, h => by
    have hb := h b (by simp)
    have ih := confirmedSince_of_young (b :: rest)
      (fun r hr => h r (mem_cons_of_mem _ hr))
    rw [confirmedSince_cons_cons, confirmed_cons_cons, ih]
    simp [hb]

/-- A cut between an operation and its confirmation loses it. -/
theorem confirmedSince_append {post : List BinlogRecord}
    (hpost : ∀ r ∈ post, older time r = false) :
    ∀ pre : List BinlogRecord, (∀ r ∈ pre, older time r = true) →
      (¬ SplitsPair BinlogRecord.role pre post →
          confirmedSince time (pre ++ post) = confirmed BinlogRecord.role post) ∧
        (SplitsPair BinlogRecord.role pre post →
          ∃ a, confirmedSince time (pre ++ post) = a :: confirmed BinlogRecord.role post)
  | [], _ => by
    refine ⟨fun _ => confirmedSince_of_young _ hpost, fun hs => ?_⟩
    obtain ⟨_, _, ha, _⟩ := hs
    simp at ha
  | [x], _ => by
    cases post with
    | nil =>
      refine ⟨fun _ => rfl, fun hs => ?_⟩
      obtain ⟨_, _, _, hb, _⟩ := hs
      simp at hb
    | cons y ys =>
      have hy := hpost y mem_cons_self
      have hrest := confirmedSince_of_young _ hpost
      constructor
      · intro hns
        have hno : ¬ (x.role = .op ∧ y.role = .ok ∧ older time y = false) :=
          fun h => hns ⟨x, y, rfl, rfl, h.1, h.2.1⟩
        show confirmedSince time (x :: y :: ys) = _
        rw [confirmedSince_cons_cons, if_neg hno, hrest]
      · rintro ⟨a, b, ha, hb, hop, hok⟩
        simp only [getLast?_singleton, Option.some.injEq] at ha
        simp only [head?_cons, Option.some.injEq] at hb
        subst ha hb
        refine ⟨x, ?_⟩
        show confirmedSince time (x :: y :: ys) = _
        rw [confirmedSince_cons_cons, if_pos ⟨hop, hok, hy⟩, hrest]
  | x :: x' :: xs, h => by
    -- the second record is older, so it confirms nothing that counts
    have hx' := h x' (by simp)
    have ih := confirmedSince_append hpost (x' :: xs)
      (fun r hr => h r (mem_cons_of_mem _ hr))
    have hstep : confirmedSince time (x :: x' :: xs ++ post)
        = confirmedSince time (x' :: xs ++ post) := by
      simp only [cons_append, confirmedSince_cons_cons]
      rw [if_neg (by rw [hx']; simp)]
    rw [splitsPair_cons_cons, hstep]
    exact ih

/-! ## §3. The loop. -/

theorem recoverPair_pairing : Pairing recRole recoverPair := by
  apply pairing_of_confirm
  · intro r
    rfl
  · intro p r hp
    simp [recoverPair, hp]
  · intro p r hp hr
    simp [recoverPair, hp, hr]
  · intro p r hp hr hfail
    exact .inr (by simp [recoverPair, hp, hr, hfail])
  · intro p r hp hr hok
    simp [recoverPair, hp, hr, hok]

section Loop

/-- The records that a reader gives, one after the other, up to the end of the log. -/
inductive Reads (read : BlReader → ReadResult × BlReader) :
    BlReader → List Bytes → BlReader → Prop where
  | done {reader reader' : BlReader} (h : read reader = (.eof, reader')) :
      Reads read reader [] reader'
  | next {reader reader' final : BlReader} {rec : Bytes} {recs : List Bytes}
      (h : read reader = (.record rec, reader')) (rest : Reads read reader' recs final) :
      Reads read reader (rec :: recs) final

/-- **The loop executes what the pairing reader emits**, up to the first operation that the check
refuses. -/
theorem recoverLoop_reads {read : BlReader → ReadResult × BlReader} {env : RecoverEnv}
    (hexec : ∀ executed p, tolerated (env.execute executed p) = true) {recs : List Bytes}
    {reader final : BlReader} (h : Reads read reader recs final) {fuel : Nat}
    (hfuel : recs.length < fuel) (pre : Option Bytes) (param : RecoverCheck)
    (executed : List Bytes) :
    ∃ ret last, recoverLoop read env fuel reader pre param executed = .finished ret last
        (executed ++ unrefused env param executed (pairingRun recoverPair pre recs).2) ∧
      (unrefused env param executed (pairingRun recoverPair pre recs).2 =
        (pairingRun recoverPair pre recs).2 → ret = 0 ∧ last = final) := by
  induction h generalizing fuel pre param executed with
  | done hread =>
    obtain ⟨n, rfl⟩ : ∃ n, fuel = n + 1 := ⟨fuel - 1, by omega⟩
    rw [recoverLoop, hread]
    exact ⟨0, _, by simp [pairingRun, unrefused], fun _ => ⟨rfl, rfl⟩⟩
  | @next reader reader' final rec recs hread _ ih =>
    obtain ⟨n, rfl⟩ : ∃ n, fuel = n + 1 := ⟨fuel - 1, by omega⟩
    have hih := ih (Nat.lt_of_succ_lt_succ hfuel) (recoverPair pre rec).1
    rw [recoverLoop, hread]
    simp only [pairingRun]
    -- most records only become the previous one
    cases hemit : (recoverPair pre rec).2 with
    | none =>
      simp only [Option.toList_none, nil_append]
      exact hih param executed
    | some p =>
      simp only [Option.toList_some, cons_append, nil_append, unrefused]
      by_cases hck : (dbRecoverCheck env executed param p).1 = 0
      · obtain ⟨ret, last, hloop, hlast⟩ :=
          hih (dbRecoverCheck env executed param p).2 (executed ++ [p])
        refine ⟨ret, last, ?_, ?_⟩
        · simp [hck, hexec executed p, hloop]
        · intro heq
          simp only [hck, ne_eq, not_true_eq_false, if_false, cons.injEq, true_and] at heq
          exact hlast heq
      · -- the loop ends with the code of the check
        exact ⟨(dbRecoverCheck env executed param p).1, reader', by simp [hck], by simp [hck]⟩

variable {d : Disk} {items : List FileItem} {fs : List (List BinlogRecord)}
  {f : List BinlogRecord}

/-- Everything that remains is read. -/
theorem reads_remaining (hlay : Layout d items fs f)
    (zs : List BinlogRecord) (hzs : ∀ z ∈ zs, z.len ≤ mbSize) :
    ∀ {reader : BlReader} {i : Nat} {xs ys : List BinlogRecord},
      ReaderAt reader none items (fs ++ [f]) i xs ys → remaining (fs ++ [f]) i ys = zs →
        ∃ final, Reads (binlogReadRecord d none mbSize) reader (zs.map BinlogRecord.toBytes) final ∧
          binlogIsReadAll d final = true := by
  have hw : Agrees none items (fs ++ [f]) := fun w hw => nomatch hw
  have hpool : mbSize < 2 ^ 31 + 4 := by decide
  induction zs with
  | nil =>
    intro reader i xs ys hat hrest
    obtain ⟨rfl, hflat⟩ := append_eq_nil_iff.mp hrest
    obtain ⟨reader', i', xs', hread, hat', _⟩ := readRecord_eof mbSize hlay hat hflat
    refine ⟨reader', .done hread, ?_⟩
    -- the reader's offset is the size of its file
    have hfile := hat'.file_eq
    rw [append_nil] at hfile
    have hsize : d.size reader'.fd.toNat = reader'.offset.toNat := by
      rw [hat'.at_byte.fd_eq, hat'.at_byte.offset_eq, Disk.size, hlay.log_eq, hfile]
      rfl
    rw [binlogIsReadAll, hsize, UInt32.ofNat_toNat, decide_eq_true_eq]
  | cons z zs ih =>
    intro reader i xs ys hat hrest
    have hz := hzs z mem_cons_self
    have hread := readRecord_remaining hlay hw hat hrest hz
    rw [if_pos (Nat.lt_of_le_of_lt hz hpool)] at hread
    obtain ⟨reader', i', xs', ys', hread, hat', hrest'⟩ := hread
    obtain ⟨final, hreads, hall⟩ := ih (fun x hx => hzs x (mem_cons_of_mem _ hx)) hat' hrest'
    exact ⟨final, .next hread hreads, hall⟩

end Loop

/-! ## §4. Recovery. -/

/-- The first record that is not older than `time` is the CONFIRM_OK of the
operation in front of it. -/
abbrev SplitByTime (time : UInt32) (recs : List BinlogRecord) : Prop :=
  SplitsPair BinlogRecord.role (recs.takeWhile (older time)) (recs.dropWhile (older time))

theorem dropWhile_older_young {recs : List BinlogRecord} (hord : TimesOrdered recs) :
    ∀ r ∈ recs.dropWhile (older time), older time r = false := by
  intro r hr
  cases hdrop : recs.dropWhile (older time) with
  | nil => rw [hdrop] at hr; cases hr
  | cons q qs =>
    have hq : older time q = false := by
      have hhead := head?_dropWhile_not (older time) recs
      rw [hdrop] at hhead
      simpa using hhead
    have hpair : TimesOrdered (q :: qs) := by
      rw [← hdrop]
      exact hord.sublist (dropWhile_sublist _)
    rw [hdrop] at hr
    rcases mem_cons.mp hr with rfl | hmem
    · exact hq
    · have hle := (pairwise_cons.mp hpair).1 r hmem
      simp only [older, decide_eq_false_iff_not, Nat.not_lt] at hq ⊢
      exact hq.trans hle

/-- The operations confirmed behind the first record that is not older than `time`, as bytes. -/
def replayed (time : UInt32) (recs : List BinlogRecord) : List Bytes :=
  (confirmed BinlogRecord.role (recs.dropWhile (older time))).map BinlogRecord.toBytes

section Recovery

variable {env : RecoverEnv} {d : Disk} {recs : List BinlogRecord} {time : UInt32}

/-- **What recovery executes** if `db_recover_check` refuses none of it. -/
theorem dbRecoverData_eq (hlog : WellFormedLog d recs) (hord : TimesOrdered recs)
    (hlen : ∀ r ∈ recs, r.len ≤ mbSize)
    (hcheck : unrefused env .init [] (replayed time recs) = replayed time recs)
    (hexec : ∀ executed p, tolerated (env.execute executed p) = true)
    {fuel : Nat} (hfuel : recs.length < fuel) :
    dbRecoverData env d time fuel = .done 0 (replayed time recs) := by
  unfold replayed at hcheck ⊢
  set post := recs.dropWhile (older time)
  have hsub : ∀ z ∈ post, z ∈ recs := fun z hz => (dropWhile_sublist _).mem hz
  obtain ⟨items, fs, f, reader, i, xs, ys, hlay, hinit, hat, hrem⟩ :=
    initBytime_position time hlog hord hlen hfuel
  have hshort : post.length < fuel := Nat.lt_of_le_of_lt (dropWhile_sublist _).length_le hfuel
  -- the loop starts without a previous record
  obtain ⟨reader', hreads, hall⟩ :=
    reads_remaining hlay post (fun z hz => hlen z (hsub z hz)) hat hrem
  have hemits : (pairingRun recoverPair none (post.map BinlogRecord.toBytes)).2
      = (confirmed BinlogRecord.role post).map BinlogRecord.toBytes := by
    rw [recoverPair_pairing.emits]
    exact confirmed_map recRole_toBytes post
  obtain ⟨ret, last, hloop, hlast⟩ :=
    recoverLoop_reads hexec hreads (by rwa [length_map]) none .init []
  rw [hemits] at hloop hlast
  obtain ⟨rfl, rfl⟩ := hlast hcheck
  rw [hcheck, nil_append] at hloop
  simp only [dbRecoverData, hinit, hloop, hall]
  rfl

theorem confirmedSince_sublist_iff (hord : TimesOrdered recs) :
    (confirmedSince time recs).Sublist
        (confirmed BinlogRecord.role (recs.dropWhile (older time))) ↔
      ¬ SplitByTime time recs := by
  obtain ⟨hclean, hsplit⟩ := confirmedSince_append (dropWhile_older_young hord)
    (recs.takeWhile (older time)) (fun r hr => mem_takeWhile_imp hr)
  rw [takeWhile_append_dropWhile] at hclean hsplit
  constructor
  · intro hsub hs
    -- one operation too many
    obtain ⟨a, ha⟩ := hsplit hs
    have hle := hsub.length_le
    rw [ha, length_cons] at hle
    omega
  · intro hns
    rw [hclean hns]

end Recovery

/-- **Recovery replays everything confirmed since the checkpoint, exactly
when the checkpoint does not fall between an operation and its
CONFIRM_OK.**  In every case it ends with success and executes the confirmed
operations behind that place, and never an operation that is not followed by
its CONFIRM_OK. -/
theorem recover_exact (env : RecoverEnv) (d : Disk) (recs : List BinlogRecord) (time : UInt32)
    (hlog : WellFormedLog d recs) (hord : TimesOrdered recs)
    (hlen : ∀ r ∈ recs, r.len ≤ mbSize)
    (hcheck : unrefused env .init [] (replayed time recs) = replayed time recs)
    (hexec : ∀ executed p, tolerated (env.execute executed p) = true)
    (fuel : Nat) (hfuel : recs.length < fuel) :
    ∃ ops : List BinlogRecord,
      dbRecoverData env d time fuel = .done 0 (ops.map BinlogRecord.toBytes) ∧
      ops.Sublist (confirmed BinlogRecord.role recs) ∧
      ((confirmedSince time recs).Sublist ops ↔ ¬ SplitByTime time recs) := by
  refine ⟨confirmed BinlogRecord.role (recs.dropWhile (older time)),
    dbRecoverData_eq hlog hord hlen hcheck hexec hfuel, ?_,
    confirmedSince_sublist_iff hord⟩
  have hsub : (confirmed BinlogRecord.role (recs.dropWhile (older time))).Sublist
      (confirmed BinlogRecord.role (recs.takeWhile (older time) ++ recs.dropWhile (older time))) :=
    confirmed_sublist_append _ _
  rwa [takeWhile_append_dropWhile] at hsub

def calmRecoverEnv : RecoverEnv :=
  { maxSegmentNum := 1, hasTable := fun _ _ => true, tableRecover := fun _ _ _ _ => 0,
    execute := fun _ _ => 0 }

/-- A checkpoint at second 8 between two confirmed deletes, over two
files. -/
theorem recover_exact_two_files :
    ∃ s, logRun 40 false
        [.write (bareRecord .delete) (calmEnv 5), .write (bareRecord .confirmOk) (calmEnv 5),
         .write (bareRecord .delete) (calmEnv 8), .write (bareRecord .confirmOk) (calmEnv 9)]
          = some s ∧
      ∃ ops : List BinlogRecord,
        dbRecoverData calmRecoverEnv s.disk 8 10 = .done 0 (ops.map BinlogRecord.toBytes) ∧
        ops.Sublist (confirmed BinlogRecord.role
          [(bareRecord .delete).stamp 5, (bareRecord .confirmOk).stamp 5,
           (bareRecord .delete).stamp 8, (bareRecord .confirmOk).stamp 9]) ∧
        ((confirmedSince 8
          [(bareRecord .delete).stamp 5, (bareRecord .confirmOk).stamp 5,
           (bareRecord .delete).stamp 8, (bareRecord .confirmOk).stamp 9]).Sublist ops ↔
          ¬ SplitByTime 8
            [(bareRecord .delete).stamp 5, (bareRecord .confirmOk).stamp 5,
             (bareRecord .delete).stamp 8, (bareRecord .confirmOk).stamp 9]) := by
  obtain ⟨s, hs, hlog⟩ := run_wellFormed 40 false
    [.write (bareRecord .delete) (calmEnv 5), .write (bareRecord .confirmOk) (calmEnv 5),
      .write (bareRecord .delete) (calmEnv 8), .write (bareRecord .confirmOk) (calmEnv 9)]
    (by decide) (by
      intro s hs
      obtain rfl := Option.some.inj hs
      decide)
  refine ⟨s, hs, recover_exact calmRecoverEnv s.disk _ 8 hlog ?_ (by decide) (by decide)
    (fun _ _ => rfl) 10 (by decide)⟩
  simp [TimesOrdered, LogOp.records, BinlogRecord.stamp, calmEnv]

/-- A checkpoint at second 5, between a delete written in second 4 and its
CONFIRM_OK written in second 5: recovery ends with success and executes
nothing. -/
theorem checkpoint_inside_pair_loses_operation :
    ∃ s, logRun 100 false
        [.write (bareRecord .delete) (calmEnv 4), .write (bareRecord .confirmOk) (calmEnv 5)]
          = some s ∧
      s.written = [(bareRecord .delete).stamp 4, (bareRecord .confirmOk).stamp 5] ∧
      dbRecoverData calmRecoverEnv s.disk 5 10 = .done 0 [] ∧
      confirmedSince 5 s.written = [(bareRecord .delete).stamp 4] :=
  ⟨_, rfl, by decide, by decide, by decide⟩

/-! ## §5. The same operations as a slave. -/

/-- **Recovery and replication select the same operations**, those that are immediately followed by
CONFIRM_OK: over any records, folding `execute_binrecord` applies all of them, and the loop of
recovery executes those in front of the first one that `db_recover_check` refuses, all of them if
it refuses none. -/
theorem recovery_selects_as_slave (read : BlReader → ReadResult × BlReader) (env : RecoverEnv)
    (recs : List Bytes) {reader final : BlReader} (hreads : Reads read reader recs final)
    (hexec : ∀ executed p, tolerated (env.execute executed p) = true) (param : RecoverCheck)
    (fuel : Nat) (hfuel : recs.length < fuel) :
    (pairingRun Slave.executeBinrecord none recs).2 = confirmed recRole recs ∧
      (∃ ret last, recoverLoop read env fuel reader none param [] =
        .finished ret last (unrefused env param [] (confirmed recRole recs))) ∧
      (unrefused env param [] (confirmed recRole recs) = confirmed recRole recs →
        recoverLoop read env fuel reader none param [] =
          .finished 0 final (confirmed recRole recs)) := by
  obtain ⟨ret, last, hloop, hlast⟩ := recoverLoop_reads hexec hreads hfuel none param []
  simp only [recoverPair_pairing.emits, Option.toList_none, nil_append] at hloop hlast
  refine ⟨Slave.executeBinrecord_pairing.emits recs none, ⟨ret, last, hloop⟩, ?_⟩
  intro hall
  obtain ⟨rfl, rfl⟩ := hlast hall
  exact hloop.trans (by rw [hall])

def listRead (recs : List Bytes) (reader : BlReader) : ReadResult × BlReader :=
  match recs[reader.offset.toNat]? with
  | some rec => (.record rec, { reader with offset := reader.offset + 1 })
  | none => (.eof, reader)

def listReader (offset : UInt32) : BlReader :=
  { fd := 0, suffix := 0, offset := offset, indexItemPos := 0, index := ⟨[]⟩ }

/-- A leading confirm, an unconfirmed delete, a confirmed one and a repeated confirm. -/
def mixedRecords : List Bytes :=
  [BinlogRecord.toBytes (bareRecord .confirmOk), BinlogRecord.toBytes (bareRecord .delete),
    BinlogRecord.toBytes (bareRecord .delete), BinlogRecord.toBytes (bareRecord .confirmOk),
    BinlogRecord.toBytes (bareRecord .confirmOk)]

theorem reads_mixedRecords :
    Reads (listRead mixedRecords) (listReader 0) mixedRecords (listReader 5) := by
  have hstep : ∀ (k : Fin 5), listRead mixedRecords (listReader (UInt32.ofNat k)) =
      (.record (mixedRecords.get k), listReader (UInt32.ofNat (k + 1))) := by decide
  refine .next (hstep 0) (.next (hstep 1) (.next (hstep 2) (.next (hstep 3) (.next (hstep 4) ?_))))
  exact .done rfl

theorem recovery_selects_as_slave_mixed :
    (pairingRun Slave.executeBinrecord none mixedRecords).2 = confirmed recRole mixedRecords ∧
    (∃ ret last, recoverLoop (listRead mixedRecords) calmRecoverEnv 6 (listReader 0) none .init [] =
      .finished ret last (unrefused calmRecoverEnv .init [] (confirmed recRole mixedRecords))) ∧
    (unrefused calmRecoverEnv .init [] (confirmed recRole mixedRecords) =
        confirmed recRole mixedRecords →
      recoverLoop (listRead mixedRecords) calmRecoverEnv 6 (listReader 0) none .init [] =
        .finished 0 (listReader 5) (confirmed recRole mixedRecords)) :=
  recovery_selects_as_slave _ calmRecoverEnv mixedRecords reads_mixedRecords (fun _ _ => rfl)
    .init 6 (by decide)

/-- An insert into segment 1 of a database with one segment, and its CONFIRM_OK. -/
def strayInsert : List Bytes :=
  [BinlogRecord.toBytes { bareRecord .insert with sid := 1 },
    BinlogRecord.toBytes (bareRecord .confirmOk)]

/-- A slave applies the insert; recovery stops at it, although every execution succeeds. -/
theorem recovery_refuses_insert :
    (pairingRun Slave.executeBinrecord none strayInsert).2 = strayInsert.take 1 ∧
    recoverLoop (listRead strayInsert) calmRecoverEnv 3 (listReader 0) none .init [] =
      .finished (-1) (listReader 2) [] ∧
    (∀ executed p, tolerated (calmRecoverEnv.execute executed p) = true) :=
  ⟨by decide, by decide, fun _ _ => rfl⟩

end Mile.DocDb
