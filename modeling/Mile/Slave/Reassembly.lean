/-
  Mile.Slave.Reassembly
  ─────────────────────
  **HOW ONE SESSION PUTS THE STREAM TOGETHER AGAIN** (`sync_with_master`).

  After every response the records handed to `execute_binrecord` are those wholly among the bytes
  received.  A record longer than a block of the pool is copied through a NULL pointer.
-/
import Mile.Slave.Exactness

namespace Mile.Slave

open Lib Common Binlog List

/-! ## §1. A session. -/

/-- The rounds of one session: each response brings the next bytes, and its
offset is the one behind them (`execute_slave_sync`). -/
def receive (applyBinlog : List Bytes → Bytes → Int) :
    SlaveState → List Bytes → Except Halt SlaveState
  | st, [] => .ok st
  | st, chunk :: chunks =>
    match syncResponse applyBinlog st
        { returnCode := 0, data := chunk, offset := st.curOffset + chunk.length } with
    | .error h => .error h
    | .ok st' => receive applyBinlog st' chunks

/-- Behind `n` bytes of the stream, the responses `chunks` fit the receive
buffer: each of them behind the bytes of the record that is not whole yet. -/
def FitsBuffer (recs : List Bytes) : Nat → List Bytes → Prop
  | _, [] => True
  | n, chunk :: chunks =>
    n - (wholePieces recs n).flatten.length + chunk.length ≤ receiveBufferSize ∧
      FitsBuffer recs (n + chunk.length) chunks

/-- `st` is what a session started in `st₀` has come to behind `n` bytes: the
records wholly among them are handed over, in order, and the stored position
is that of the first byte behind those records. -/
def Reassembled (recs : List Bytes) (st₀ : SlaveState) (n : Nat) (st : SlaveState) : Prop :=
  st.handled = st₀.handled ++ wholePieces recs n ∧
    st.syncPos = st₀.syncPos + (wholePieces recs n).flatten.length

/-- The outcome of a session behind `n` bytes: reassembled exactly, or stopped
by a failing `ApplyBinlog` at one of the whole records. -/
def SessionExact (recs : List Bytes) (st₀ : SlaveState) (n : Nat) :
    Except Halt SlaveState → Prop
  | .ok st => Reassembled recs st₀ n st
  | .error h => h.reason = .applyFailed ∧
      h.st.handled <+: st₀.handled ++ wholePieces recs n

/-- Every record that can arrive (it and those before it fit the receive
buffer) can be copied out of the buffer. -/
def Copyable (recs : List Bytes) : Prop :=
  ∀ k f, recs[k]? = some f → (∀ g ∈ recs.take (k + 1), g.length ≤ receiveBufferSize) →
    f.length ≤ mbSize

/-! ## §2. One response. -/

/-- Behind record `k`, `buf` is a proper piece of the next record, or nothing
when no record is left. -/
def PieceAt (recs : List Bytes) (k : Nat) (buf : Bytes) : Prop :=
  (k = recs.length ∧ buf = []) ∨
    ∃ f, recs[k]? = some f ∧ buf <+: f ∧ buf.length < f.length

/-- The session started in `st₀` has received `bytes`: it has handed over `k`
records, each short enough for the buffer, and holds a piece of the next
one. -/
structure Received (recs : List Bytes) (st₀ : SlaveState) (bytes : Bytes) (k : Nat)
    (st : SlaveState) : Prop where
  le_length : k ≤ recs.length
  bytes_eq : bytes = (recs.take k).flatten ++ st.buf
  handled_eq : st.handled = st₀.handled ++ recs.take k
  pos_eq : st.syncPos = st₀.syncPos + (recs.take k).flatten.length
  offset_eq : st.curOffset = st.syncPos + st.buf.length
  piece : PieceAt recs k st.buf
  fitted : ∀ f ∈ recs.take k, f.length ≤ receiveBufferSize

section Steps

variable (applyBinlog : List Bytes → Bytes → Int) {recs : List Bytes}
  {st₀ st : SlaveState} {bytes chunk : Bytes} {k : Nat}

theorem PieceAt.wholePieces_eq {buf : Bytes} (hk : k ≤ recs.length) (h : PieceAt recs k buf) :
    wholePieces recs ((recs.take k).flatten ++ buf).length = recs.take k := by
  rw [length_append]
  apply wholePieces_eq_take hk
  rcases h with ⟨hkl, _⟩ | ⟨f, hf, _, hlt⟩
  · exact .inl hkl
  · exact .inr ⟨f, hf, hlt⟩

variable (hrecs : ∀ f ∈ recs, IsRecord f) (hcopy : Copyable recs)
  (h : Received recs st₀ bytes k st)

include h in
theorem Received.wholePieces_eq : wholePieces recs bytes.length = recs.take k := by
  rw [h.bytes_eq]
  exact h.piece.wholePieces_eq h.le_length

include hrecs in
theorem PieceAt.drain_stops {buf : Bytes} (h : PieceAt recs k buf) (fuel : Nat) (s : SlaveState) :
    drain 4 recLen (handleRecord applyBinlog) (fun s => ⟨.spin, s⟩) (fuel + 1) s buf
      = .ok (s, buf) := by
  rcases h with ⟨_, rfl⟩ | ⟨f, hf, hpre, hlt⟩
  · simp [drain]
  · exact drain_partial (hrecs f (mem_of_getElem? hf)).isFrame hpre hlt fuel s

include hrecs in
theorem drain_records {fs : List Bytes} (hfs : ∀ f ∈ fs, IsRecord f) {tail : Bytes}
    (htail : PieceAt recs k tail) (s : SlaveState) :
    drain 4 recLen (handleRecord applyBinlog) (fun s => ⟨.spin, s⟩)
        ((fs.flatten ++ tail).length + 1) s (fs.flatten ++ tail)
      = (handleAll (handleRecord applyBinlog) s fs).map (fun s' => (s', tail)) := by
  have hcount : fs.length ≤ fs.flatten.length :=
    length_le_flatten fs (fun f hf => (hfs f hf).ne_nil)
  apply drain_frames (fun f hf => (hfs f hf).isFrame) (htail.drain_stops applyBinlog hrecs)
  rw [length_append]
  omega

include h

include hrecs in
/-- The buffer holds some records and a piece. -/
theorem Received.cut (hpre : bytes ++ chunk <+: recs.flatten) :
    ∃ j tail, k + j ≤ recs.length ∧ PieceAt recs (k + j) tail ∧
      st.buf ++ chunk = ((recs.drop k).take j).flatten ++ tail := by
  have hrest : st.buf ++ chunk <+: (recs.drop k).flatten := by
    rw [h.bytes_eq, append_assoc] at hpre
    nth_rewrite 2 [← take_append_drop k recs] at hpre
    rwa [List.flatten_append, prefix_append_right_inj] at hpre
  have hne : ∀ f ∈ recs.drop k, f ≠ [] := fun f hf =>
    (hrecs f (mem_of_mem_drop hf)).ne_nil
  have hk := h.le_length
  obtain ⟨j, tail, hj, hcut, htail⟩ := prefix_split hrest hne
  rw [length_drop] at hj htail
  refine ⟨j, tail, by omega, ?_, hcut⟩
  rcases htail with ⟨hjl, ht⟩ | ⟨f, hf, hp, hlt⟩
  · exact .inl ⟨by omega, ht⟩
  · rw [getElem?_drop] at hf
    exact .inr ⟨f, hf, hp, hlt⟩

include hcopy in
/-- Records of a batch fit the buffers. -/
theorem Received.batch_copyable {j : Nat}
    (hfit : ((recs.drop k).take j).flatten.length ≤ receiveBufferSize) :
    (∀ f ∈ recs.take (k + j), f.length ≤ receiveBufferSize) ∧
      ∀ f ∈ (recs.drop k).take j, f.length ≤ mbSize := by
  have hall : ∀ f ∈ recs.take (k + j), f.length ≤ receiveBufferSize := by
    intro f hf
    rw [take_add, mem_append] at hf
    rcases hf with hf | hf
    · exact h.fitted f hf
    · exact (sublist_flatten_of_mem hf).length_le.trans hfit
  refine ⟨hall, ?_⟩
  intro f hf
  obtain ⟨i, hi⟩ := mem_iff_getElem?.mp hf
  -- record `i` of the batch is record `k + i` of the stream
  have hij : i < j := by
    by_contra hge
    rw [getElem?_eq_none (by rw [length_take]; omega)] at hi
    simp at hi
  rw [getElem?_take_of_lt hij, getElem?_drop] at hi
  apply hcopy (k + i) f hi
  intro g hg
  exact hall g (take_subset_take_left recs (by omega) hg)

/-- A chunk completes some records. -/
theorem Received.advance {j : Nat} {tail : Bytes}
    (hkj : k + j ≤ recs.length) (hpiece : PieceAt recs (k + j) tail)
    (hcut : st.buf ++ chunk = ((recs.drop k).take j).flatten ++ tail)
    (hfitted : ∀ f ∈ recs.take (k + j), f.length ≤ receiveBufferSize) :
    Received recs st₀ (bytes ++ chunk) (k + j)
      { afterBatch st ((recs.drop k).take j) with
        buf := tail
        curOffset := st.curOffset + chunk.length
        syncPos := st.curOffset + chunk.length - tail.length } := by
  have htake : recs.take (k + j) = recs.take k ++ (recs.drop k).take j := take_add
  have hsum : st.buf.length + chunk.length
      = ((recs.drop k).take j).flatten.length + tail.length := by
    rw [← length_append, hcut, length_append]
  have hpos : st.curOffset + chunk.length
      = st₀.syncPos + (recs.take (k + j)).flatten.length + tail.length := by
    rw [h.offset_eq, h.pos_eq, htake, List.flatten_append, length_append]
    omega
  exact
    { le_length := hkj
      bytes_eq := by
        show bytes ++ chunk = (recs.take (k + j)).flatten ++ tail
        rw [h.bytes_eq, htake, List.flatten_append, append_assoc, hcut, append_assoc]
      handled_eq := by
        show st.handled ++ (recs.drop k).take j = st₀.handled ++ recs.take (k + j)
        rw [h.handled_eq, htake, append_assoc]
      pos_eq := by
        show st.curOffset + chunk.length - tail.length = _
        omega
      offset_eq := by
        show st.curOffset + chunk.length = st.curOffset + chunk.length - tail.length + tail.length
        omega
      piece := hpiece
      fitted := hfitted }

include hrecs hcopy in
/-- **One response** keeps the invariant, or the process stops in a failing
`ApplyBinlog` at one of the records that are whole by now. -/
theorem Received.step (hpre : bytes ++ chunk <+: recs.flatten)
    (hfit : st.buf.length + chunk.length ≤ receiveBufferSize) :
    match syncResponse applyBinlog st
        { returnCode := 0, data := chunk, offset := st.curOffset + chunk.length } with
    | .ok st' => ∃ k', Received recs st₀ (bytes ++ chunk) k' st'
    | .error halt => halt.reason = .applyFailed ∧
        halt.st.handled <+: st₀.handled ++ wholePieces recs (bytes ++ chunk).length := by
  by_cases hempty : chunk = []
  · -- an empty response changes nothing
    subst hempty
    have hsame : syncResponse applyBinlog st
        { returnCode := 0, data := [], offset := st.curOffset + ([] : Bytes).length }
          = .ok st := by
      simp [syncResponse]
    rw [hsame]
    exact ⟨k, by rwa [append_nil]⟩
  obtain ⟨j, tail, hkj, hpiece, hcut⟩ := h.cut hrecs hpre
  have hbatch : ((recs.drop k).take j).flatten.length ≤ receiveBufferSize := by
    have hlen := congrArg List.length hcut
    simp only [length_append] at hlen
    omega
  obtain ⟨hfitted, hlens⟩ := h.batch_copyable hcopy hbatch
  have hbatchRecs : ∀ f ∈ (recs.drop k).take j, IsRecord f := fun f hf =>
    hrecs f (mem_of_mem_drop (mem_of_mem_take hf))
  have hcopyLens : ∀ f ∈ (recs.drop k).take j, recLen f ≤ mbSize := by
    intro f hf
    rw [(hbatchRecs f hf).2]
    exact hlens f hf
  unfold syncResponse
  rw [if_neg (by simpa using hempty), if_neg (Nat.not_lt.mpr hfit)]
  dsimp only
  rw [hcut, drain_records applyBinlog hrecs hbatchRecs hpiece]
  have hadvance := h.advance hkj hpiece hcut hfitted
  rcases handleAll_spec applyBinlog _ st hcopyLens with hok | ⟨i, _, herr⟩
  · rw [hok]
    exact ⟨k + j, hadvance⟩
  · -- `ApplyBinlog` failed at record `i` of the batch
    rw [herr]
    refine ⟨rfl, ?_⟩
    show st.handled ++ ((recs.drop k).take j).take i <+: _
    rw [hadvance.wholePieces_eq, h.handled_eq, append_assoc,
        prefix_append_right_inj, take_add, prefix_append_right_inj]
    exact take_prefix _ _

end Steps

/-! ## §3. A whole session. -/

theorem Received.start (recs : List Bytes) (hrecs : ∀ f ∈ recs, IsRecord f)
    (st : SlaveState) : Received recs (newSession st) [] 0 (newSession st) where
  le_length := Nat.zero_le _
  bytes_eq := by simp [newSession]
  handled_eq := by simp
  pos_eq := by simp
  offset_eq := rfl
  piece := by
    cases recs with
    | nil => exact .inl ⟨rfl, rfl⟩
    | cons f fs =>
      exact .inr ⟨f, rfl, nil_prefix, length_pos_of_ne_nil (hrecs f mem_cons_self).ne_nil⟩
  fitted := by simp

/-- The run lemma of the chunks. -/
theorem receive_spec (applyBinlog : List Bytes → Bytes → Int) {recs : List Bytes}
    {st₀ : SlaveState} (hrecs : ∀ f ∈ recs, IsRecord f) (hcopy : Copyable recs) :
    ∀ (chunks : List Bytes) {bytes : Bytes} {k : Nat} {st : SlaveState},
      Received recs st₀ bytes k st → bytes ++ chunks.flatten <+: recs.flatten →
      FitsBuffer recs bytes.length chunks →
        SessionExact recs st₀ (bytes ++ chunks.flatten).length (receive applyBinlog st chunks) := by
  intro chunks
  induction chunks with
  | nil =>
    intro bytes k st h _ _
    rw [flatten_nil, append_nil, receive, SessionExact, Reassembled, h.wholePieces_eq]
    exact ⟨h.handled_eq, h.pos_eq⟩
  | cons chunk chunks ih =>
    intro bytes k st h hpre hfits
    rw [flatten_cons, ← append_assoc] at hpre ⊢
    obtain ⟨hfit, hrest⟩ := hfits
    rw [← length_append] at hrest
    -- the bytes not in whole records are those in the buffer
    have hbuf : st.buf.length + chunk.length ≤ receiveBufferSize := by
      rw [h.wholePieces_eq] at hfit
      have hlen := congrArg List.length h.bytes_eq
      rw [length_append] at hlen
      omega
    have hstep := h.step applyBinlog hrecs hcopy ((prefix_append _ _).trans hpre) hbuf
    rw [receive]
    cases hout : syncResponse applyBinlog st
        { returnCode := 0, data := chunk, offset := st.curOffset + chunk.length } with
    | error halt =>
      rw [hout] at hstep
      obtain ⟨hreason, hhandled⟩ := hstep
      refine ⟨hreason, hhandled.trans ?_⟩
      rw [prefix_append_right_inj]
      exact wholePieces_mono recs (by simp)
    | ok st' =>
      rw [hout] at hstep
      obtain ⟨k', h'⟩ := hstep
      exact ih h' hpre hrest

/-! ## §4. Records that cannot be copied. -/

theorem syncResponse_record (applyBinlog : List Bytes → Bytes → Int) {st : SlaveState}
    {f : Bytes} (hbuf : st.buf = []) (hf : IsRecord f)
    (hfit : f.length ≤ receiveBufferSize) (off : Nat) :
    syncResponse applyBinlog st { returnCode := 0, data := f, offset := off }
      = (handleRecord applyBinlog st f).map
          (fun st' => { st' with buf := [], curOffset := off, syncPos := off }) := by
  -- the buffer is one whole record, and no record is known behind it
  have hnone : PieceAt [] 0 [] := .inl ⟨rfl, rfl⟩
  have hone : ∀ g ∈ [f], IsRecord g := by simpa using hf
  have hdrain := drain_records applyBinlog (by simp) hone hnone st
  simp only [flatten_cons, flatten_nil, append_nil] at hdrain
  unfold syncResponse
  rw [if_neg (by simpa using hf.ne_nil), if_neg (by simpa [hbuf] using hfit)]
  dsimp only
  rw [hbuf, nil_append, hdrain]
  simp only [handleAll]
  cases handleRecord applyBinlog st f with
  | error h => rfl
  | ok st' => rfl

/-- A record that is too long for the copy faults. -/
theorem receive_faults {fs : List Bytes} :
    ∀ {st : SlaveState}, st.buf = [] → (∀ f ∈ fs, IsRecord f) →
      (∀ f ∈ fs, f.length ≤ receiveBufferSize) → (∃ f ∈ fs, mbSize < f.length) →
        ∃ st', receive (fun _ _ => 0) st fs = .error ⟨.copyFault, st'⟩ := by
  induction fs with
  | nil =>
    intro st _ _ _ hlong
    simp at hlong
  | cons f fs ih =>
    intro st hbuf hrecs hfits hlong
    have hf : IsRecord f := hrecs f mem_cons_self
    rw [receive, syncResponse_record _ hbuf hf (hfits f mem_cons_self)]
    by_cases hcopy : mbSize < f.length
    · -- this one: the copy goes through the NULL pointer
      have hfault : handleRecord (fun _ _ => 0) st f = .error ⟨.copyFault, st⟩ := by
        simp [handleRecord, hf.2, hcopy]
      rw [hfault]
      exact ⟨st, rfl⟩
    · have hok : ∃ st', handleRecord (fun _ _ => 0) st f = .ok st' := by
        unfold handleRecord
        rw [hf.2, if_neg hcopy]
        dsimp only
        split
        · exact ⟨_, rfl⟩
        · exact ⟨_, if_pos rfl⟩
      obtain ⟨st', hst'⟩ := hok
      rw [hst']
      apply ih rfl (fun g hg => hrecs g (mem_cons_of_mem _ hg))
        (fun g hg => hfits g (mem_cons_of_mem _ hg))
      obtain ⟨g, hg, hlt⟩ := hlong
      rcases mem_cons.mp hg with rfl | hg
      · exact absurd hlt hcopy
      · exact ⟨g, hg, hlt⟩

theorem fitsBuffer_records {recs : List Bytes} (hrecs : ∀ f ∈ recs, IsRecord f) :
    ∀ {todo done rest : List Bytes}, recs = done ++ (todo ++ rest) →
      (∀ f ∈ todo, f.length ≤ receiveBufferSize) →
        FitsBuffer recs done.flatten.length todo := by
  intro todo
  induction todo with
  | nil =>
    intro done rest _ _
    trivial
  | cons f todo ih =>
    intro done rest hsplit hfits
    have hf : f ≠ [] := (hrecs f (by simp [hsplit])).ne_nil
    -- what came before are whole records, so the buffer is empty
    have hwhole : wholePieces recs (done.flatten.length + 0) = done := by
      have htake : recs.take done.length = done := by simp [hsplit]
      have hle : done.length ≤ recs.length := by simp [hsplit]
      have hget : recs[done.length]? = some f := by simp [hsplit]
      have hcut := wholePieces_eq_take hle (.inr ⟨f, hget, length_pos_of_ne_nil hf⟩)
      rwa [htake] at hcut
    refine ⟨?_, ?_⟩
    · rw [Nat.add_zero] at hwhole
      rw [hwhole]
      have := hfits f mem_cons_self
      omega
    · have hmove : recs = (done ++ [f]) ++ (todo ++ rest) := by simp [hsplit]
      have hnext := ih hmove (fun g hg => hfits g (mem_cons_of_mem _ hg))
      simpa using hnext

/-! ## §5. Exactly the records that can be copied. -/

/-- **A session reassembles its stream** at every cut of it into responses
that fit the receive buffer, and whatever `ApplyBinlog` answers, exactly when
`make_record_copy` can copy every record that can arrive. -/
theorem session_reassembles (recs : List Bytes) (hrecs : ∀ f ∈ recs, IsRecord f)
    (st : SlaveState) :
    (∀ (applyBinlog : List Bytes → Bytes → Int) (chunks : List Bytes),
      chunks.flatten <+: recs.flatten → FitsBuffer recs 0 chunks →
        SessionExact recs (newSession st) chunks.flatten.length
          (receive applyBinlog (newSession st) chunks)) ↔
      Copyable recs := by
  constructor
  · intro hall k f hf hfits
    by_contra hlong
    -- the records up to this one, sent one by one
    have hsplit : recs = [] ++ (recs.take (k + 1) ++ recs.drop (k + 1)) := by simp
    have hpre : (recs.take (k + 1)).flatten <+: recs.flatten := by
      conv_rhs => rw [hsplit, nil_append, List.flatten_append]
      exact prefix_append _ _
    have hmem : f ∈ recs.take (k + 1) := by
      rw [mem_iff_getElem?]
      exact ⟨k, by rw [getElem?_take_of_lt (Nat.lt_succ_self k), hf]⟩
    have hexact := hall (fun _ _ => 0) (recs.take (k + 1)) hpre
      (fitsBuffer_records hrecs hsplit hfits)
    have hbuf : (newSession st).buf = [] := rfl
    obtain ⟨st', hfault⟩ := receive_faults hbuf
      (fun g hg => hrecs g (mem_of_mem_take hg)) hfits ⟨f, hmem, by omega⟩
    rw [hfault] at hexact
    exact HaltReason.noConfusion hexact.1
  · intro hcopy applyBinlog chunks hpre hfits
    exact receive_spec applyBinlog hrecs hcopy chunks (Received.start recs hrecs st) hpre hfits

theorem session_reassembles_sampleLog :
    (∀ (applyBinlog : List Bytes → Bytes → Int) (chunks : List Bytes),
      chunks.flatten <+: (sampleLog.map BinlogRecord.toBytes).flatten →
      FitsBuffer (sampleLog.map BinlogRecord.toBytes) 0 chunks →
        SessionExact (sampleLog.map BinlogRecord.toBytes) (newSession SlaveState.init)
          chunks.flatten.length
          (receive applyBinlog (newSession SlaveState.init) chunks)) ↔
      Copyable (sampleLog.map BinlogRecord.toBytes) :=
  session_reassembles (sampleLog.map BinlogRecord.toBytes) (by decide) SlaveState.init

def longRecord : Bytes := leBytes 4 (mbSize + 1) ++ replicate (mbSize - 3) 0

/-- A record one byte too long for the pool, received whole in one response
that fits the buffer, stops the slave in `make_record_copy`. -/
theorem oversized_record_faults :
    IsRecord longRecord ∧ FitsBuffer [longRecord] 0 [longRecord] ∧
      (∃ st, receive (fun _ _ => 0) (newSession SlaveState.init) [longRecord]
        = .error ⟨.copyFault, st⟩) ∧
      ¬ SessionExact [longRecord] (newSession SlaveState.init) longRecord.length
        (receive (fun _ _ => 0) (newSession SlaveState.init) [longRecord]) := by
  have hlen : longRecord.length = mbSize + 1 := by
    rw [longRecord, length_append, leBytes_length, length_replicate]
    decide
  have hrec : IsRecord longRecord := by
    refine ⟨?_, ?_⟩
    · rw [hlen]
      decide
    · rw [hlen]
      exact leAt_append [] _ 4 (mbSize + 1) rfl (by decide)
  have hrecs : ∀ f ∈ [longRecord], IsRecord f := by simpa using hrec
  have hfit : ∀ f ∈ [longRecord], f.length ≤ receiveBufferSize := by
    intro f hf
    rw [mem_singleton.mp hf, hlen]
    decide
  have hbuf : (newSession SlaveState.init).buf = [] := rfl
  obtain ⟨st, hfault⟩ := receive_faults hbuf hrecs hfit
    ⟨longRecord, mem_singleton_self _, by omega⟩
  refine ⟨hrec, ?_, ⟨st, hfault⟩, ?_⟩
  · have hsplit : [longRecord] = [] ++ ([longRecord] ++ []) := rfl
    exact fitsBuffer_records hrecs hsplit hfit
  · rw [hfault]
    intro hexact
    exact HaltReason.noConfusion hexact.1

end Mile.Slave
