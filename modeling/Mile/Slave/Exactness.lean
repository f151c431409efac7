/-
  Mile.Slave.Exactness
  ────────────────────
  **WHAT A RUN OF SYNC SESSIONS APPLIES.**

  The operations a slave hands to `ApplyBinlog` against those its master confirmed.  One whose
  CONFIRM_OK has not been seen when a session ends is forgotten (`SplitAt`).
-/
import Mile.Slave.Sync

namespace Mile.Slave

open Lib Common Binlog List

/-! ## §1. `execute_binrecord` is a pairing reader. -/

theorem executeBinrecord_pairing : Pairing recRole executeBinrecord := by
  apply pairing_of_confirm
  · intro r
    rfl
  · intro p r hp
    simp [executeBinrecord, hp]
  · intro p r hp hr
    simp [executeBinrecord, hp, hr]
  · intro p r hp hr hfail
    exact .inl (by simp [executeBinrecord, hp, hr, hfail])
  · intro p r hp hr hok
    simp [executeBinrecord, hp, hr, hok]

/-! ## §2. A batch of records. -/

section Batch

variable (applyBinlog : List Bytes → Bytes → Int)

/-- The slave after handing over `fs` without an exit. -/
def afterBatch (st : SlaveState) (fs : List Bytes) : SlaveState :=
  { st with
    prev := (pairingRun executeBinrecord st.prev fs).1
    handled := st.handled ++ fs
    applied := st.applied ++ (pairingRun executeBinrecord st.prev fs).2 }

theorem afterBatch_nil (st : SlaveState) : afterBatch st [] = st := by
  simp [afterBatch, pairingRun]

theorem afterBatch_cons (st : SlaveState) (f : Bytes) (fs : List Bytes) :
    afterBatch (afterBatch st [f]) fs = afterBatch st (f :: fs) := by
  simp [afterBatch, pairingRun]

theorem handleRecord_spec (st : SlaveState) {f : Bytes} (hf : recLen f ≤ mbSize) :
    handleRecord applyBinlog st f = .ok (afterBatch st [f]) ∨
      handleRecord applyBinlog st f = .error ⟨.applyFailed, afterBatch st [f]⟩ := by
  have hst : afterBatch st [f] = { st with
      prev := (executeBinrecord st.prev f).1
      handled := st.handled ++ [f]
      applied := st.applied ++ (executeBinrecord st.prev f).2.toList } := by
    simp [afterBatch, pairingRun]
  unfold handleRecord
  rw [if_neg (by omega), hst]
  dsimp only
  split
  · exact .inl rfl
  · split
    · exact .inl rfl
    · exact .inr rfl

/-- A batch is handled, or up to a record that fails. -/
theorem handleAll_spec :
    ∀ (fs : List Bytes) (st : SlaveState), (∀ f ∈ fs, recLen f ≤ mbSize) →
      handleAll (handleRecord applyBinlog) st fs = .ok (afterBatch st fs) ∨
        ∃ j, j ≤ fs.length ∧
          handleAll (handleRecord applyBinlog) st fs
            = .error ⟨.applyFailed, afterBatch st (fs.take j)⟩
  | [], st, _ => .inl (by rw [afterBatch_nil]; rfl)
  | f :: fs, st, hfs => by
    rcases handleRecord_spec applyBinlog st (hfs f mem_cons_self) with h | h
    · have hrest := handleAll_spec fs (afterBatch st [f])
        (fun g hg => hfs g (mem_cons_of_mem _ hg))
      simp only [handleAll, h]
      rcases hrest with hr | ⟨j, hj, hr⟩
      · exact .inl (by rw [hr, afterBatch_cons])
      · refine .inr ⟨j + 1, by simp; omega, ?_⟩
        rw [hr, afterBatch_cons]
        rfl
    · refine .inr ⟨1, by simp, ?_⟩
      simp only [handleAll, h]
      rfl

end Batch

/-! ## §3. The invariant. -/

theorem image_drop (recs : List BinlogRecord) (k : Nat) :
    (image recs).drop (image (recs.take k)).length = image (recs.drop k) := by
  unfold image
  rw [map_take, flatten_drop_take, map_drop]

/-- Byte position `pos` separates an operation record from its CONFIRM_OK. -/
abbrev SplitAt (recs : List BinlogRecord) (pos : Nat) : Prop :=
  ∃ k, k < recs.length ∧ (image (recs.take k)).length = pos ∧
    SplitsPair BinlogRecord.role (recs.take k) (recs.drop k)

variable {recs : List BinlogRecord}

theorem splitAt_of_splitsPair {k : Nat}
    (h : SplitsPair BinlogRecord.role (recs.take k) (recs.drop k)) :
    SplitAt recs (image (recs.take k)).length := by
  refine ⟨k, ?_, rfl, h⟩
  obtain ⟨_, b, _, hb, _⟩ := h
  by_contra hk
  rw [drop_eq_nil_of_le (by omega)] at hb
  simp at hb

/-- What may stand in the buffer behind record `k`: a proper prefix of that
record, or nothing when the log ends there. -/
def Leftover (recs : List BinlogRecord) (k : Nat) (buf : Bytes) : Prop :=
  (k = recs.length ∧ buf = []) ∨
    ∃ r, recs[k]? = some r ∧ buf <+: r.toBytes ∧ buf.length < r.len

/-- The slave has consumed the records `recs.take k`; its current session
started behind `recs.take s` and holds a proper prefix of record `k`. -/
structure SyncInv (recs : List BinlogRecord) (st : SlaveState) (s k : Nat) : Prop where
  start_le : s ≤ k
  le_length : k ≤ recs.length
  /-- The session did not start between an operation and its CONFIRM_OK. -/
  start_clean : ¬ SplitsPair BinlogRecord.role (recs.take s) (recs.drop s)
  handled_eq : st.handled = (recs.take k).map BinlogRecord.toBytes
  /-- The pending record and what was applied are those of a pairing reader
  started with the session. -/
  prev_eq : st.prev = (pairingRun executeBinrecord none
    (((recs.take k).drop s).map BinlogRecord.toBytes)).1
  applied_eq : st.applied = (confirmed BinlogRecord.role (recs.take s)).map BinlogRecord.toBytes
    ++ (pairingRun executeBinrecord none
      (((recs.take k).drop s).map BinlogRecord.toBytes)).2
  pos_eq : st.syncPos = (image (recs.take k)).length
  offset_eq : st.curOffset = st.syncPos + st.buf.length
  leftover : Leftover recs k st.buf

abbrev Exact (recs : List BinlogRecord) (st : SlaveState) (k : Nat) : Prop :=
  st.handled = (recs.take k).map BinlogRecord.toBytes ∧
    st.applied = (confirmed BinlogRecord.role (recs.take k)).map BinlogRecord.toBytes

/-- A session that splits no pair applies what is confirmed. -/
theorem confirmed_of_session {s j : Nat} (hs : s ≤ j)
    (hclean : ¬ SplitsPair BinlogRecord.role (recs.take s) (recs.drop s)) :
    (confirmed BinlogRecord.role (recs.take s)).map BinlogRecord.toBytes
      ++ (pairingRun executeBinrecord none
          (((recs.take j).drop s).map BinlogRecord.toBytes)).2
      = (confirmed BinlogRecord.role (recs.take j)).map BinlogRecord.toBytes := by
  have hsplit : recs.take j = recs.take s ++ (recs.take j).drop s := by
    conv_lhs => rw [← take_append_drop s (recs.take j)]
    rw [take_take, Nat.min_eq_left hs]
  -- the session's records begin where the log goes on behind its start
  have hno : ¬ SplitsPair BinlogRecord.role (recs.take s) ((recs.take j).drop s) := by
    rintro ⟨a, b, ha, hb, hop, hok⟩
    refine hclean ⟨a, b, ha, ?_, hop, hok⟩
    rw [drop_take, head?_take] at hb
    split at hb
    · simp at hb
    · exact hb
  -- what the session applied is what its own records confirm
  have hemit := executeBinrecord_pairing.emits
    (((recs.take j).drop s).map BinlogRecord.toBytes) none
  rw [hemit]
  show _ ++ confirmed recRole (((recs.take j).drop s).map BinlogRecord.toBytes) = _
  rw [confirmed_map recRole_toBytes, ← map_append, ← confirmed_append_of_not_split hno, ← hsplit]

theorem SyncInv.exact {st : SlaveState} {s k : Nat} (h : SyncInv recs st s k) : Exact recs st k :=
  ⟨h.handled_eq, by rw [h.applied_eq, confirmed_of_session h.start_le h.start_clean]⟩

theorem leftover_nil {k : Nat} (hk : k ≤ recs.length) : Leftover recs k [] := by
  rcases Nat.lt_or_eq_of_le hk with hlt | heq
  · have hpos := (recs[k]).len_bounds.1
    refine .inr ⟨recs[k], getElem?_eq_getElem hlt, nil_prefix, ?_⟩
    simp only [headerSize, length_nil] at hpos ⊢
    omega
  · exact .inl ⟨heq, rfl⟩

theorem SyncInv.init (recs : List BinlogRecord) : SyncInv recs SlaveState.init 0 0 where
  start_le := Nat.le_refl 0
  le_length := Nat.zero_le _
  start_clean := by rintro ⟨a, b, ha, _⟩; simp at ha
  handled_eq := rfl
  prev_eq := rfl
  applied_eq := rfl
  pos_eq := rfl
  offset_eq := rfl
  leftover := leftover_nil (Nat.zero_le _)

/-! ## §4. One event. -/

section Steps

variable (applyBinlog : List Bytes → Bytes → Int) {recs : List BinlogRecord}
  {st : SlaveState} {s k : Nat}

theorem Leftover.drain_stops {tail : Bytes} (h : Leftover recs k tail) (fuel : Nat)
    (st : SlaveState) :
    drain 4 recLen (handleRecord applyBinlog) (fun s => ⟨.spin, s⟩) (fuel + 1) st tail
      = .ok (st, tail) := by
  rcases h with ⟨_, rfl⟩ | ⟨r, _, hpre, hlt⟩
  · simp [drain]
  · exact drain_partial (isFrame_toBytes r) hpre (by rwa [BinlogRecord.toBytes_length]) fuel st

theorem drain_image {xs : List BinlogRecord} {tail : Bytes} (h : Leftover recs k tail)
    (st : SlaveState) :
    drain 4 recLen (handleRecord applyBinlog) (fun s => ⟨.spin, s⟩)
        ((image xs ++ tail).length + 1) st (image xs ++ tail)
      = (handleAll (handleRecord applyBinlog) st (xs.map BinlogRecord.toBytes)).map
          (fun st' => (st', tail)) := by
  have hcount := length_le_flatten (xs.map BinlogRecord.toBytes) (by
    intro f hf
    obtain ⟨r, _, rfl⟩ := mem_map.mp hf
    exact r.toBytes_ne_nil)
  have hframes : ∀ f ∈ xs.map BinlogRecord.toBytes, IsFrame 4 recLen f := by
    intro f hf
    obtain ⟨r, _, rfl⟩ := mem_map.mp hf
    exact isFrame_toBytes r
  have hfuel : (xs.map BinlogRecord.toBytes).length < (image xs ++ tail).length + 1 := by
    rw [length_append, image]
    omega
  exact drain_frames hframes (h.drain_stops applyBinlog) _ st hfuel

variable (hfit : ∀ r ∈ recs, r.len ≤ mbSize) (h : SyncInv recs st s k)

include h

/-- What a batch handles and applies. -/
theorem SyncInv.afterBatch (i : Nat) :
    let st' := afterBatch st (((recs.drop k).take i).map BinlogRecord.toBytes)
    let out := pairingRun executeBinrecord none
      (((recs.take (k + i)).drop s).map BinlogRecord.toBytes)
    st'.handled = (recs.take (k + i)).map BinlogRecord.toBytes ∧ st'.prev = out.1 ∧
      st'.applied = (confirmed BinlogRecord.role (recs.take s)).map BinlogRecord.toBytes
        ++ out.2 := by
  intro st' out
  have htake : recs.take (k + i) = recs.take k ++ (recs.drop k).take i := take_add
  have hlen : s ≤ (recs.take k).length := by
    rw [length_take]
    exact le_min h.start_le (h.start_le.trans h.le_length)
  have hseg : ((recs.take (k + i)).drop s).map BinlogRecord.toBytes
      = ((recs.take k).drop s).map BinlogRecord.toBytes
        ++ ((recs.drop k).take i).map BinlogRecord.toBytes := by
    rw [htake, drop_append_of_le_length hlen, map_append]
  -- the reader goes on from the pending record it has kept
  have hout := pairingRun_append executeBinrecord none
    (((recs.take k).drop s).map BinlogRecord.toBytes)
    (((recs.drop k).take i).map BinlogRecord.toBytes)
  rw [← hseg, ← h.prev_eq] at hout
  refine ⟨?_, ?_, ?_⟩
  · show st.handled ++ _ = _
    rw [h.handled_eq, htake, map_append]
  · show (pairingRun executeBinrecord st.prev _).1 = out.1
    rw [show out = _ from hout]
  · show st.applied ++ (pairingRun executeBinrecord st.prev _).2 = _ ++ out.2
    rw [show out = _ from hout, h.applied_eq, append_assoc]

theorem SyncInv.exact_afterBatch (i : Nat) :
    Exact recs (Slave.afterBatch st (((recs.drop k).take i).map BinlogRecord.toBytes)) (k + i) := by
  obtain ⟨hhandled, _, happlied⟩ := h.afterBatch i
  exact ⟨hhandled, by
    rw [happlied, confirmed_of_session (h.start_le.trans (Nat.le_add_right k i)) h.start_clean]⟩

theorem SyncInv.buffer_prefix (n : Nat) :
    st.buf ++ ((image recs).drop st.curOffset).take n <+: image (recs.drop k) := by
  have hbuf : st.buf <+: image (recs.drop k) := by
    rcases h.leftover with ⟨_, hb⟩ | ⟨r, hr, hpre, _⟩
    · rw [hb]; exact nil_prefix
    · obtain ⟨hk, hget⟩ := List.getElem?_eq_some_iff.mp hr
      rw [drop_eq_getElem_cons hk, hget]
      exact hpre.trans (by simp [image])
  obtain ⟨post, hpost⟩ := hbuf
  -- the response starts where the leftover ends
  have hdrop : (image recs).drop st.curOffset = post := by
    rw [h.offset_eq, h.pos_eq, ← drop_drop, image_drop, ← hpost, drop_left]
  rw [hdrop, ← hpost]
  exact (prefix_append_right_inj _).mpr ( take_prefix _ _)

include hfit in
theorem SyncInv.buffer_fits (log : Bytes) (off n : Nat) :
    st.buf.length + (masterResponse log off n).data.length ≤ receiveBufferSize := by
  have hdata : (masterResponse log off n).data.length ≤ maxBinlogDataPerPacket := by
    simp only [masterResponse, length_take]
    omega
  have hbuf : st.buf.length ≤ mbSize := by
    rcases h.leftover with ⟨_, hb⟩ | ⟨r, hr, _, hlt⟩
    · simp [hb]
    · have := hfit r (mem_of_getElem? hr)
      omega
  -- one leftover and one packet fit: this is why the buffer never overruns
  have hcap : mbSize + maxBinlogDataPerPacket ≤ receiveBufferSize := by decide
  exact (Nat.add_le_add hbuf hdata).trans hcap

/-- The outcome of one event: the invariant again, or the process stopped in
a failing `ApplyBinlog` with the traces exact. -/
def StepOutcome (recs : List BinlogRecord) : Except Halt SlaveState → Prop
  | .ok st => ∃ s k, SyncInv recs st s k
  | .error h => h.reason = .applyFailed ∧ ∃ k, k ≤ recs.length ∧ Exact recs h.st k

/-- The buffer holds some records and a piece. -/
theorem SyncInv.cut (n : Nat) :
    ∃ j tail, k + j ≤ recs.length ∧ Leftover recs (k + j) tail ∧
      st.buf ++ ((image recs).drop st.curOffset).take n
        = image ((recs.drop k).take j) ++ tail := by
  have hne : ∀ f ∈ (recs.drop k).map BinlogRecord.toBytes, f ≠ [] := by
    intro f hf
    obtain ⟨r, _, rfl⟩ := mem_map.mp hf
    exact r.toBytes_ne_nil
  have hk := h.le_length
  obtain ⟨j, tail, hj, hcut, htail⟩ := prefix_split (h.buffer_prefix n) hne
  rw [length_map, length_drop] at hj htail
  rw [← map_take] at hcut
  refine ⟨j, tail, by omega, ?_, hcut⟩
  rcases htail with ⟨hjl, ht⟩ | ⟨f, hf, hpre, hlt⟩
  · exact .inl ⟨by omega, ht⟩
  · rw [getElem?_map, getElem?_drop, Option.map_eq_some_iff] at hf
    obtain ⟨r, hr, rfl⟩ := hf
    exact .inr ⟨r, hr, hpre, by rwa [BinlogRecord.toBytes_length] at hlt⟩

/-- A batch keeps the invariant. -/
theorem SyncInv.advance {j : Nat} {data tail : Bytes} (hkj : k + j ≤ recs.length)
    (hleft : Leftover recs (k + j) tail)
    (hcut : st.buf ++ data = image ((recs.drop k).take j) ++ tail) :
    SyncInv recs
      { Slave.afterBatch st (((recs.drop k).take j).map BinlogRecord.toBytes) with
        buf := tail
        curOffset := st.curOffset + data.length
        syncPos := st.curOffset + data.length - tail.length } s (k + j) := by
  obtain ⟨hhandled, hprev, happlied⟩ := h.afterBatch j
  have himage : (image (recs.take (k + j))).length
      = (image (recs.take k)).length + (image ((recs.drop k).take j)).length := by
    rw [take_add, image_append, length_append]
  have hsum : st.buf.length + data.length
      = (image ((recs.drop k).take j)).length + tail.length := by
    rw [← length_append, hcut, length_append]
  have hoff : st.curOffset + data.length = (image (recs.take (k + j))).length + tail.length := by
    rw [h.offset_eq, h.pos_eq, himage]
    omega
  exact
    { start_le := h.start_le.trans (Nat.le_add_right k j)
      le_length := hkj
      start_clean := h.start_clean
      handled_eq := hhandled
      prev_eq := hprev
      applied_eq := happlied
      pos_eq := by
        show st.curOffset + data.length - tail.length = _
        omega
      offset_eq := by
        show st.curOffset + data.length = st.curOffset + data.length - tail.length + tail.length
        omega
      leftover := hleft }

include hfit in
/-- The step lemma of the responses. -/
theorem syncStep_response (n : Nat) :
    StepOutcome recs (syncStep applyBinlog (image recs) st (.response n)) := by
  show StepOutcome recs
    (syncResponse applyBinlog st (masterResponse (image recs) st.curOffset n))
  unfold syncResponse
  split
  · -- an empty response changes nothing
    exact ⟨s, k, h⟩
  rw [if_neg (Nat.not_lt.mpr (h.buffer_fits hfit (image recs) st.curOffset n))]
  obtain ⟨j, tail, hkj, hleft, hcut⟩ := h.cut (min n maxBinlogDataPerPacket)
  have hdata : st.buf ++ (masterResponse (image recs) st.curOffset n).data
      = image ((recs.drop k).take j) ++ tail := hcut
  dsimp only
  rw [hdata, drain_image applyBinlog hleft]
  have hlens : ∀ f ∈ ((recs.drop k).take j).map BinlogRecord.toBytes, recLen f ≤ mbSize := by
    intro f hf
    obtain ⟨r, hr, rfl⟩ := mem_map.mp hf
    rw [(isFrame_toBytes r).2 r.toBytes ( take_prefix _ _), BinlogRecord.toBytes_length]
    exact hfit r (mem_of_mem_drop (mem_of_mem_take hr))
  rcases handleAll_spec applyBinlog _ st hlens with hok | ⟨i, _, herr⟩
  · rw [hok]
    exact ⟨s, k + j, h.advance hkj hleft hdata⟩
  · -- ApplyBinlog failed at record `i` of the batch
    rw [herr]
    refine ⟨rfl, k + min i j, by omega, ?_⟩
    have hex := h.exact_afterBatch (min i j)
    rwa [← take_take, map_take] at hex

/-- A new session that splits no pair. -/
theorem SyncInv.newSession (hclean : ¬ SplitAt recs st.syncPos) :
    SyncInv recs (newSession st) k k where
  start_le := Nat.le_refl k
  le_length := h.le_length
  start_clean := fun hs => hclean (h.pos_eq ▸ splitAt_of_splitsPair hs)
  handled_eq := h.handled_eq
  prev_eq := by simp [Slave.newSession, pairingRun]
  applied_eq := by
    have happlied : st.applied = _ := h.exact.2
    simp [Slave.newSession, pairingRun, happlied]
  pos_eq := h.pos_eq
  offset_eq := rfl
  leftover := leftover_nil h.le_length

include hfit in
/-- **One event keeps the invariant**, when it does not end a session between
an operation and its CONFIRM_OK. -/
theorem syncStep_inv (ev : SyncEvent) (hclean : ev = .reconnect → ¬ SplitAt recs st.syncPos) :
    StepOutcome recs (syncStep applyBinlog (image recs) st ev) := by
  cases ev with
  | response n => exact syncStep_response applyBinlog hfit h n
  | masterError =>
    have hsame : syncStep applyBinlog (image recs) st .masterError = .ok st := by
      simp [syncStep, syncResponse]
    rw [hsame]
    exact ⟨s, k, h⟩
  | reconnect => exact ⟨k, k, h.newSession (hclean rfl)⟩

end Steps

/-! ## §5. Whole runs. -/

/-- No session of the run ends between an operation and its CONFIRM_OK. -/
def CleanRun (applyBinlog : List Bytes → Bytes → Int) (recs : List BinlogRecord) :
    SlaveState → List SyncEvent → Prop
  | _, [] => True
  | st, ev :: evs =>
    (ev = .reconnect → ¬ SplitAt recs st.syncPos) ∧
      match syncStep applyBinlog (image recs) st ev with
      | .error _ => True
      | .ok st' => CleanRun applyBinlog recs st' evs

instance decidableCleanRun (applyBinlog : List Bytes → Bytes → Int)
    (recs : List BinlogRecord) :
    ∀ st evs, Decidable (CleanRun applyBinlog recs st evs)
  | _, [] => isTrue trivial
  | st, ev :: evs =>
    have : Decidable (match syncStep applyBinlog (image recs) st ev with
        | .error _ => True
        | .ok st' => CleanRun applyBinlog recs st' evs) :=
      match syncStep applyBinlog (image recs) st ev with
      | .error _ => isTrue trivial
      | .ok st' => decidableCleanRun applyBinlog recs st' evs
    inferInstanceAs (Decidable (_ ∧ _))

/-- The run lemma of the sessions. -/
theorem syncRun_outcome {applyBinlog : List Bytes → Bytes → Int}
    (hfit : ∀ r ∈ recs, r.len ≤ mbSize) :
    ∀ (evs : List SyncEvent) {st : SlaveState} {s k : Nat}, SyncInv recs st s k →
      CleanRun applyBinlog recs st evs →
        StepOutcome recs (syncRun applyBinlog (image recs) st evs)
  | [], _, s, k, h, _ => ⟨s, k, h⟩
  | ev :: evs, st, s, k, h, hclean => by
    have hstep := syncStep_inv applyBinlog hfit h ev hclean.1
    have hrest := hclean.2
    unfold syncRun
    cases hout : syncStep applyBinlog (image recs) st ev with
    | error halt => rw [hout] at hstep; exact hstep
    | ok st' =>
      rw [hout] at hstep hrest
      obtain ⟨s', k', h'⟩ := hstep
      exact syncRun_outcome hfit evs h' hrest

/-- **Replication is exact** over every run whose sessions all end at places
that separate no operation from its CONFIRM_OK: the slave has consumed some
prefix of the log and handed exactly the confirmed operations of that prefix
to `ApplyBinlog`, each once and in order; the process stops for no other
reason than a failing `ApplyBinlog`. -/
theorem syncRun_exact (applyBinlog : List Bytes → Bytes → Int) (recs : List BinlogRecord)
    (hfit : ∀ r ∈ recs, r.len ≤ mbSize) (evs : List SyncEvent)
    (hclean : CleanRun applyBinlog recs SlaveState.init evs) :
    match syncRun applyBinlog (image recs) SlaveState.init evs with
    | .ok st => ∃ k, k ≤ recs.length ∧ Exact recs st k ∧
        st.syncPos = (image (recs.take k)).length
    | .error h => h.reason = .applyFailed ∧ ∃ k, k ≤ recs.length ∧ Exact recs h.st k := by
  have hout := syncRun_outcome hfit evs (SyncInv.init recs) hclean
  cases hrun : syncRun applyBinlog (image recs) SlaveState.init evs with
  | error h => rw [hrun] at hout; exact hout
  | ok st =>
    rw [hrun] at hout
    obtain ⟨s, k, hinv⟩ := hout
    exact ⟨k, hinv.le_length, hinv.exact, hinv.pos_eq⟩

def sampleLog : List BinlogRecord :=
  [bareRecord .delete, bareRecord .confirmOk, bareRecord .delete, bareRecord .confirmOk]

/-- Two sessions over two confirmed operations, with responses cut inside the
records; the first session ends with nine bytes of the third record read. -/
theorem syncRun_exact_two_sessions :
    match syncRun (fun _ _ => 0) (image sampleLog) SlaveState.init
      [.response 10, .response 31, .reconnect, .response 40] with
    | .ok st => ∃ k, k ≤ 4 ∧ Exact sampleLog st k ∧
        st.syncPos = (image (sampleLog.take k)).length
    | .error h => h.reason = .applyFailed ∧
        ∃ k, k ≤ 4 ∧ Exact sampleLog h.st k :=
  syncRun_exact (fun _ _ => 0) sampleLog (by decide)
    [.response 10, .response 31, .reconnect, .response 40] (by decide)

/-- A session that ends between an operation and its CONFIRM_OK loses the
operation: both records are consumed and nothing is applied. -/
theorem syncRun_reconnect_loses_operation :
    ∃ st, syncRun (fun _ _ => 0) (image [bareRecord .delete, bareRecord .confirmOk]) SlaveState.init
        [.response 16, .reconnect, .response 16] = .ok st ∧
      st.handled = [(bareRecord .delete).toBytes, (bareRecord .confirmOk).toBytes] ∧
      st.applied = [] ∧
      confirmed BinlogRecord.role [bareRecord .delete, bareRecord .confirmOk] =
        [bareRecord .delete] ∧
      ∀ k, k ≤ 2 → ¬ Exact [bareRecord .delete, bareRecord .confirmOk] st k :=
  ⟨_, rfl, by decide⟩

end Mile.Slave
