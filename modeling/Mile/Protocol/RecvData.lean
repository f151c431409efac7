/-
  Mile.Protocol.RecvData
  ──────────────────────
  **THE RECEIVE LOOP OF A CONNECTION** (`docserver.cpp`, `protocol.cpp`).

  `recv_data` appends what `read` returned to the connection's buffer and hands over whole
  packets: a length in four bytes, which count themselves, and a body.  A full buffer without a
  whole packet is replaced by one of the packet's length.
-/
import Mile.Lib.Framing
import Mile.Protocol.Packet

namespace Mile.Protocol

open Lib Common List

/-! ## §1. The code. -/

/-- What ends the process: a read past the received data, a write to memory
that could not be allocated, a write past a new buffer, and a loop without end. -/
inductive RecvFault where
  | stray
  | crash
  | overrun
  | stuck
  deriving DecidableEq

/-- `struct mile_packet` as far as it is filled here: the buffer of its body and
the type in the message header. -/
structure MilePacket where
  rbuf : DataBuffer
  messageType : Nat
  deriving DecidableEq

/-- `MT_MD_EXE_INSERT`. -/
def mtMdExeInsert : Nat := 0x2101

inductive PacketQueue where
  | insertQueue
  | queryQueue
  deriving DecidableEq

/-- The queue `recv_data` puts a packet into. -/
def MilePacket.queue (p : MilePacket) : PacketQueue :=
  if p.messageType = mtMdExeInsert then .insertQueue else .queryQueue

def lengthField (buf : Bytes) : Nat := beNat (buf.take 4)

/-- The packet with a body; `read_pos_int16` marks a body without a message type
as one that was read past its end. -/
def packetOfBody (body : Bytes) : MilePacket :=
  if body.length < 4 then ⟨⟨body, 0, true⟩, 0⟩
  else ⟨⟨body, 0, false⟩, beNat ((body.drop 2).take 2)⟩

/-- `pre_parse_packet`, with the largest block `malloc` can give.  `packet_len - 4`
is a 32-bit difference, and what `malloc` returns for it is not checked. -/
def preParsePacket (heapSize : Nat) (buf : Bytes) :
    Except RecvFault (Option (MilePacket × Nat)) :=
  if buf.length < 4 then .ok none
  else
    let packetLen := lengthField buf
    if buf.length < packetLen then .ok none
    else
      let dataLen := (packetLen + 2 ^ 32 - 4) % 2 ^ 32
      if heapSize < dataLen then .error .crash
      else if buf.length < 4 + dataLen then .error .stray
      else .ok (some (packetOfBody ((buf.drop 4).take dataLen), packetLen))

/-- The `for` loop of `recv_data`. -/
def recvLoop (heapSize : Nat) (rbuf : Bytes) :
    Nat → Nat → List (PacketQueue × MilePacket) →
      Except RecvFault (Nat × List (PacketQueue × MilePacket))
  | 0, _, _ => .error .stuck
  | fuel + 1, n, packets =>
    if (n : Int) < int32 rbuf.length then
      match preParsePacket heapSize (rbuf.drop n) with
      | .error e => .error e
      | .ok none => .ok (n, packets)
      | .ok (some (packet, parsedLen)) =>
        recvLoop heapSize rbuf fuel (n + parsedLen) (packets ++ [(packet.queue, packet)])
    else .ok (n, packets)

/-- `struct docserver_connect`: the received bytes, the size of the buffer they
stand in, and the packets that were put into the queues. -/
structure DocserverConnect where
  rbuf : Bytes
  rbufSize : Nat
  packets : List (PacketQueue × MilePacket)
  closed : Bool
  deriving DecidableEq

/-- `new_docserver_connect`. -/
def newDocserverConnect : DocserverConnect := ⟨[], mbSize, [], false⟩

/-- `recv_data` behind its call of `read`; `none` is an error of `read`. -/
def recvData (heapSize : Nat) (conn : DocserverConnect) :
    Option Bytes → Except RecvFault DocserverConnect
  | none => .ok { conn with closed := true }
  | some [] => .ok { conn with closed := true }
  | some (byte :: bytes) =>
    let rbuf := conn.rbuf ++ byte :: bytes
    match recvLoop heapSize rbuf (rbuf.length + 1) 0 conn.packets with
    | .error e => .error e
    | .ok (n, packets) =>
      if 0 < n then .ok { conn with rbuf := rbuf.drop n, packets := packets }
      else if rbuf.length = conn.rbufSize then
        let packetLen := lengthField rbuf
        -- there is no return behind the failed `malloc`
        if heapSize < packetLen then .error .crash
        else if packetLen < rbuf.length then .error .overrun
        else .ok { conn with rbuf := rbuf, rbufSize := packetLen, packets := packets }
      else .ok { conn with rbuf := rbuf, packets := packets }

/-- One call of `recv_data` for each chunk. -/
def recvRun (heapSize : Nat) (conn : DocserverConnect) (chunks : List Bytes) :
    Except RecvFault DocserverConnect :=
  chunks.foldlM (fun conn chunk => recvData heapSize conn (some chunk)) conn

/-- The chunks are such that `read` can return them one after the other: none is
empty, and each fits the free part of the buffer. -/
def Reads (heapSize : Nat) : DocserverConnect → List Bytes → Prop
  | _, [] => True
  | conn, chunk :: chunks =>
    chunk ≠ [] ∧ conn.rbuf.length + chunk.length ≤ conn.rbufSize ∧
      match recvData heapSize conn (some chunk) with
      | .ok conn' => Reads heapSize conn' chunks
      | .error _ => True

instance Reads.decidable (heapSize : Nat) :
    (conn : DocserverConnect) → (chunks : List Bytes) → Decidable (Reads heapSize conn chunks)
  | _, [] => isTrue trivial
  | conn, chunk :: chunks =>
    have : Decidable (match recvData heapSize conn (some chunk) with
        | .ok conn' => Reads heapSize conn' chunks
        | .error _ => True) :=
      match recvData heapSize conn (some chunk) with
      | .ok conn' => Reads.decidable heapSize conn' chunks
      | .error _ => isTrue trivial
    inferInstanceAs (Decidable (_ ∧ _ ∧ _))

/-- The length of the packet that stands as a whole at the front of a stream. -/
def frameLen (s : Bytes) : Option Nat :=
  if 4 ≤ lengthField s ∧ 4 ≤ s.length ∧ lengthField s ≤ s.length then some (lengthField s)
  else none

def packetOfFrame (f : Bytes) : PacketQueue × MilePacket :=
  let packet := packetOfBody (f.drop 4)
  (packet.queue, packet)

/-- A length that counts its own field, that an `int32_t` holds and for which
there is memory. -/
def LengthOk (heapSize len : Nat) : Prop := 4 ≤ len ∧ len < 2 ^ 31 ∧ len ≤ heapSize

def LengthsOk (heapSize : Nat) (fs : List Bytes) (rest : Bytes) : Prop :=
  (∀ f ∈ fs, LengthOk heapSize (lengthField f)) ∧
    (4 ≤ rest.length → LengthOk heapSize (lengthField rest))

/-- One iteration of the loop: a packet of at least one byte that is there, or
more data is asked for. -/
def Progresses (buf : Bytes) : Except RecvFault (Option (MilePacket × Nat)) → Prop
  | .ok none => True
  | .ok (some (_, parsedLen)) => 0 < parsedLen ∧ parsedLen ≤ buf.length
  | .error _ => False

instance (buf : Bytes) : (r : Except RecvFault (Option (MilePacket × Nat))) →
    Decidable (Progresses buf r)
  | .ok none => isTrue trivial
  | .ok (some (_, parsedLen)) =>
    inferInstanceAs (Decidable (0 < parsedLen ∧ parsedLen ≤ buf.length))
  | .error _ => isFalse id

/-! ## §2. Frames. -/

theorem lengthField_append {s : Bytes} (h : 4 ≤ s.length) (t : Bytes) :
    lengthField (s ++ t) = lengthField s := by
  rw [lengthField, lengthField, take_append_of_le_length h]

theorem lengthField_lt (s : Bytes) : lengthField s < 2 ^ 32 := by
  have hlt := leNat_lt (s.take 4).reverse
  have hlen : (s.take 4).reverse.length ≤ 4 := by simp
  calc lengthField s < 256 ^ (s.take 4).reverse.length := hlt
    _ ≤ 256 ^ 4 := Nat.pow_le_pow_right (by decide) hlen
    _ = 2 ^ 32 := by norm_num

theorem frameLen_some {s : Bytes} {n : Nat} :
    frameLen s = some n ↔ n = lengthField s ∧ 4 ≤ n ∧ 4 ≤ s.length ∧ n ≤ s.length := by
  unfold frameLen
  split
  · next h =>
      constructor
      · intro heq
        cases heq
        exact ⟨rfl, h⟩
      · rintro ⟨rfl, -⟩
        rfl
  · next h =>
      constructor
      · intro heq
        cases heq
      · rintro ⟨rfl, hrest⟩
        exact absurd hrest h

theorem frameLen_frames : FrameLen frameLen where
  pos := fun h => by
    have := (frameLen_some.mp h).2.1
    omega
  le := fun h => (frameLen_some.mp h).2.2.2
  stable := fun t h => by
    obtain ⟨hn, h4, hs, hle⟩ := frameLen_some.mp h
    rw [frameLen_some, lengthField_append hs, length_append]
    exact ⟨hn, h4, by omega, by omega⟩

theorem framed_lengthField {s rest : Bytes} {fs : List Bytes} (h : Framed frameLen s fs rest) :
    ∀ f ∈ fs, 4 ≤ f.length ∧ lengthField f = f.length := by
  induction h with
  | stop _ => simp
  | @frame s n fs rest hs _ ih =>
    obtain ⟨hn, h4, hlen, hle⟩ := frameLen_some.mp hs
    refine forall_mem_cons.mpr ⟨?_, ih⟩
    have hfield : lengthField (s.take n) = lengthField s := by
      rw [lengthField, lengthField, take_take, Nat.min_eq_left h4]
    have hl : (s.take n).length = n := by rw [length_take, Nat.min_eq_left hle]
    exact ⟨by rw [hl]; exact h4, by rw [hfield, hl, hn]⟩

theorem LengthsOk.of_append {heapSize : Nat} {p q rest rest' : Bytes} {fs fs' : List Bytes}
    (hp : Framed frameLen p fs rest) (h' : Framed frameLen (p ++ q) fs' rest')
    (hok : LengthsOk heapSize fs' rest') : LengthsOk heapSize fs rest := by
  obtain ⟨gs, rest'', hq⟩ := Framed.exists_framed frameLen_frames (rest ++ q)
  obtain ⟨rfl, rfl⟩ := h'.unique (hp.append frameLen_frames hq)
  refine ⟨fun f hf => hok.1 f (mem_append_left _ hf), fun hlen => ?_⟩
  have hlen' : 4 ≤ (rest ++ q).length := by rw [length_append]; omega
  rw [← lengthField_append hlen q]
  -- the field is that of the next frame, or of the rest
  cases hq with
  | stop _ => exact hok.2 hlen'
  | @frame _ n gs _ hs _ =>
    have hn := (frameLen_some.mp hs).2.1
    have hfirst := hok.1 ((rest ++ q).take n) (by simp)
    rwa [lengthField, take_take, Nat.min_eq_left hn] at hfirst

/-! ## §3. One iteration. -/

section Iteration

variable {heapSize : Nat}

theorem preParsePacket_frame {buf : Bytes} {n : Nat} (hn : frameLen buf = some n)
    (hheap : n ≤ heapSize) :
    preParsePacket heapSize buf = .ok (some ((packetOfFrame (buf.take n)).2, n)) := by
  obtain ⟨hfield, h4, hlen, hle⟩ := frameLen_some.mp hn
  have hlt : n < 2 ^ 32 := hfield ▸ lengthField_lt buf
  have hdata : (n + 2 ^ 32 - 4) % 2 ^ 32 = n - 4 := by
    rw [show n + 2 ^ 32 - 4 = n - 4 + 2 ^ 32 by omega, Nat.add_mod_right]
    exact Nat.mod_eq_of_lt (by omega)
  simp only [preParsePacket, ← hfield, hdata]
  rw [if_neg (by omega), if_neg (by omega), if_neg (by omega), if_neg (by omega)]
  rw [packetOfFrame, drop_take]

theorem preParsePacket_rest {rest : Bytes} (hrest : frameLen rest = none)
    (hok : 4 ≤ rest.length → 4 ≤ lengthField rest) :
    preParsePacket heapSize rest = .ok none := by
  unfold preParsePacket
  split
  · rfl
  · next hlen =>
      have h4 := hok (by omega)
      rw [if_pos]
      by_contra hle
      have hsome : frameLen rest = some (lengthField rest) :=
        frameLen_some.mpr ⟨rfl, h4, by omega, by omega⟩
      rw [hrest] at hsome
      cases hsome

/-- When a length field is a sound one. -/
theorem preParsePacket_progresses_iff (buf : Bytes) (hbuf : buf.length < 2 ^ 32) :
    Progresses buf (preParsePacket heapSize buf) ↔
      (4 ≤ buf.length → lengthField buf ≤ buf.length →
        4 ≤ lengthField buf ∧ lengthField buf - 4 ≤ heapSize) := by
  unfold preParsePacket
  split
  · next hlen =>
      simp only [Progresses, true_iff]
      omega
  · next hlen =>
      simp only
      split
      · next hpart =>
          simp only [Progresses, true_iff]
          omega
      · next hwhole =>
          by_cases h4 : 4 ≤ lengthField buf
          · have hdata : (lengthField buf + 2 ^ 32 - 4) % 2 ^ 32 = lengthField buf - 4 := by
              rw [show lengthField buf + 2 ^ 32 - 4 = lengthField buf - 4 + 2 ^ 32 by omega,
                Nat.add_mod_right]
              exact Nat.mod_eq_of_lt (by omega)
            rw [hdata]
            split
            · simp only [Progresses, false_iff]
              omega
            · rw [if_neg (by omega)]
              simp only [Progresses]
              omega
          · -- the difference has wrapped around: more is copied than any buffer holds
            have hdata : (lengthField buf + 2 ^ 32 - 4) % 2 ^ 32 = lengthField buf + 2 ^ 32 - 4 :=
              Nat.mod_eq_of_lt (by omega)
            rw [hdata, if_pos (show buf.length < 4 + (lengthField buf + 2 ^ 32 - 4) by omega)]
            split <;> simp only [Progresses, false_iff] <;> omega

/-! ## §4. The loop. -/

/-- The loop takes all complete packets. -/
theorem recvLoop_framed {rbuf : Bytes} (hint : rbuf.length < 2 ^ 31) {s rest : Bytes}
    {fs : List Bytes} (h : Framed frameLen s fs rest) (hok : LengthsOk heapSize fs rest) :
    ∀ (fuel n : Nat) (packets : List (PacketQueue × MilePacket)), s = rbuf.drop n →
      n ≤ rbuf.length → fs.length < fuel →
      recvLoop heapSize rbuf fuel n packets =
        .ok (n + fs.flatten.length, packets ++ fs.map packetOfFrame) := by
  have hcast : int32 rbuf.length = rbuf.length := if_pos hint
  induction h with
  | @stop s hnone =>
    intro fuel n packets hs hn hfuel
    obtain ⟨fuel, rfl⟩ : ∃ k, fuel = k + 1 := ⟨fuel - 1, by simp at hfuel; omega⟩
    simp only [recvLoop, hcast, flatten_nil, length_nil, map_nil, Nat.add_zero, append_nil]
    rw [← hs, preParsePacket_rest hnone fun hlen => (hok.2 hlen).1]
    split <;> rfl
  | @frame s k fs rest hs _ ih =>
    intro fuel n packets hdrop hn hfuel
    obtain ⟨fuel, rfl⟩ : ∃ k, fuel = k + 1 := ⟨fuel - 1, by simp at hfuel; omega⟩
    obtain ⟨hfield, h4, hlen, hle⟩ := frameLen_some.mp hs
    have hin : n + k ≤ rbuf.length := by
      rw [hdrop, length_drop] at hle
      omega
    have htake : (s.take k).length = k := by rw [length_take, Nat.min_eq_left hle]
    have hheap : k ≤ heapSize := by
      have hfirst := (hok.1 (s.take k) mem_cons_self).2.2
      rwa [lengthField, take_take, Nat.min_eq_left h4, ← lengthField, ← hfield] at hfirst
    -- one iteration for the first frame, the others by induction
    simp only [recvLoop, hcast]
    rw [if_pos (by omega), ← hdrop, preParsePacket_frame hs hheap]
    simp only
    rw [ih ⟨fun f hf => hok.1 f (mem_cons_of_mem _ hf), hok.2⟩ fuel (n + k) _
      (by rw [hdrop, drop_drop]) hin (by simp at hfuel; omega)]
    rw [flatten_cons, length_append, htake, map_cons, append_assoc, Nat.add_assoc]
    rfl

end Iteration

/-! ## §5. The connection. -/

section Connection

variable {heapSize : Nat}

/-- The buffer has room for more data, and stays below 2^31 bytes. -/
structure ConnectInv (conn : DocserverConnect) : Prop where
  opened : conn.closed = false
  room : conn.rbuf.length < conn.rbufSize
  large : mbSize ≤ conn.rbufSize
  small : conn.rbufSize < 2 ^ 31

/-- The step lemma of the reads. -/
theorem recvData_framed {conn : DocserverConnect} (hinv : ConnectInv conn) {chunk rest : Bytes}
    {fs : List Bytes} (hne : chunk ≠ []) (hfit : conn.rbuf.length + chunk.length ≤ conn.rbufSize)
    (h : Framed frameLen (conn.rbuf ++ chunk) fs rest) (hok : LengthsOk heapSize fs rest) :
    ∃ conn', recvData heapSize conn (some chunk) = .ok conn' ∧ ConnectInv conn' ∧
      conn'.rbuf = rest ∧ conn'.packets = conn.packets ++ fs.map packetOfFrame := by
  obtain ⟨byte, bytes, rfl⟩ := exists_cons_of_ne_nil hne
  have hsmall := hinv.small
  have hlen : (conn.rbuf ++ byte :: bytes).length ≤ conn.rbufSize := by
    rw [length_append]
    exact hfit
  have hsplit := h.flatten_append
  have hcount : fs.length < (conn.rbuf ++ byte :: bytes).length + 1 := by
    have hfs : ∀ f ∈ fs, f ≠ [] := fun f hf hnil => by
      have := (framed_lengthField h f hf).1
      simp [hnil] at this
    have := length_le_flatten fs hfs
    rw [hsplit, length_append]
    omega
  have hloop := recvLoop_framed (by omega) h hok _ 0 conn.packets rfl (Nat.zero_le _) hcount
  rw [Nat.zero_add] at hloop
  simp only [recvData, hloop]
  by_cases hn : 0 < fs.flatten.length
  · -- something was consumed: the rest is shorter than the buffer
    have hdrop : (conn.rbuf ++ byte :: bytes).drop fs.flatten.length = rest := by
      rw [hsplit, drop_left]
    have hroom : rest.length < conn.rbufSize := by
      rw [hsplit, length_append] at hlen
      omega
    rw [if_pos hn, hdrop]
    exact ⟨_, rfl, ⟨hinv.opened, hroom, hinv.large, hinv.small⟩, rfl, rfl⟩
  · -- nothing was consumed: a full buffer is made larger
    have hnil : fs.flatten = [] := eq_nil_of_length_eq_zero (by omega)
    have hrest : rest = conn.rbuf ++ byte :: bytes := by rw [hsplit, hnil, nil_append]
    rw [if_neg hn, ← hrest]
    rw [← hrest] at hlen
    by_cases hfull : rest.length = conn.rbufSize
    · have h4 : 4 ≤ rest.length := by
        have := hinv.large
        simp only [mbSize] at this
        omega
      obtain ⟨hfield, hint, hheap⟩ := hok.2 h4
      have hlong : rest.length < lengthField rest := by
        by_contra hle
        have hsome := frameLen_some.mpr ⟨rfl, hfield, h4, Nat.not_lt.mp hle⟩
        rw [h.rest_none] at hsome
        cases hsome
      have hlarge : mbSize ≤ lengthField rest := by
        have := hinv.large
        omega
      rw [if_pos hfull, if_neg (by omega), if_neg (by omega)]
      exact ⟨_, rfl, ⟨hinv.opened, hlong, hlarge, hint⟩, rfl, rfl⟩
    · have hroom : rest.length < conn.rbufSize := by omega
      rw [if_neg hfull]
      exact ⟨_, rfl, ⟨hinv.opened, hroom, hinv.large, hinv.small⟩, rfl, rfl⟩

/-- **Any division into reads** gives the packets of the stream. -/
theorem recvRun_framed (chunks : List Bytes) :
    ∀ {conn : DocserverConnect} {p : Bytes} {fs : List Bytes}, ConnectInv conn →
      Reads heapSize conn chunks → Framed frameLen p fs conn.rbuf →
      conn.packets = fs.map packetOfFrame → ∀ {fs' rest'},
      Framed frameLen (p ++ chunks.flatten) fs' rest' → LengthsOk heapSize fs' rest' →
      ∃ conn', recvRun heapSize conn chunks = .ok conn' ∧ ConnectInv conn' ∧
        conn'.rbuf = rest' ∧ conn'.packets = fs'.map packetOfFrame := by
  induction chunks with
  | nil =>
    intro conn p fs hinv _ hp hpackets fs' rest' hframed _
    rw [flatten_nil, append_nil] at hframed
    obtain ⟨rfl, hrest⟩ := hframed.unique hp
    exact ⟨conn, rfl, hinv, hrest.symm, hpackets⟩
  | cons chunk chunks ih =>
    intro conn p fs hinv hreads hp hpackets fs' rest' hframed hok
    obtain ⟨hne, hfit, hnext⟩ := hreads
    rw [flatten_cons, ← append_assoc] at hframed
    -- the frames up to the end of the chunk, and those of the buffer
    obtain ⟨gs, rest, hbuf⟩ := Framed.exists_framed frameLen_frames (conn.rbuf ++ chunk)
    have hp' := hp.append frameLen_frames hbuf
    have hok' := LengthsOk.of_append hp' hframed hok
    have hokbuf : LengthsOk heapSize gs rest :=
      ⟨fun f hf => hok'.1 f (mem_append_right _ hf), hok'.2⟩
    obtain ⟨conn', hstep, hinv', hrest, hpackets'⟩ := recvData_framed hinv hne hfit hbuf hokbuf
    rw [hstep] at hnext
    rw [hpackets, ← map_append] at hpackets'
    obtain ⟨conn'', hrun, hfinal⟩ := ih hinv' hnext (hrest ▸ hp') hpackets' hframed hok
    refine ⟨conn'', ?_, hfinal⟩
    rw [recvRun, foldlM_cons, hstep]
    exact hrun

theorem connectInv_new : ConnectInv newDocserverConnect :=
  ⟨rfl, by decide, le_rfl, by decide⟩

end Connection

/-- **FRAMING IS CHUNK INDEPENDENT**: every stream splits, in one way, into frames — a
length field that counts itself and the body — and a rest.  If the length fields are
at least 4 and below 2^31 and there is memory for the packets, every way of cutting it
into reads hands over exactly these packets, keeps the rest, and leaves room for more.
An iteration consumes a byte or asks for more data exactly if a packet that is
there as a whole has a length field of at least 4 and its body can be allocated. -/
theorem framing_chunk_independent (heapSize : Nat) :
    (∀ stream : Bytes, ∃ fs rest, Framed frameLen stream fs rest ∧
      (∀ f ∈ fs, 4 ≤ f.length ∧ lengthField f = f.length) ∧
      (LengthsOk heapSize fs rest → ∀ chunks : List Bytes, chunks.flatten = stream →
        Reads heapSize newDocserverConnect chunks →
        ∃ conn, recvRun heapSize newDocserverConnect chunks = .ok conn ∧ conn.closed = false ∧
          conn.packets = fs.map packetOfFrame ∧ conn.rbuf = rest ∧
          conn.rbuf.length < conn.rbufSize)) ∧
    (∀ buf : Bytes, buf.length < 2 ^ 32 →
      (Progresses buf (preParsePacket heapSize buf) ↔
        (4 ≤ buf.length → lengthField buf ≤ buf.length →
          4 ≤ lengthField buf ∧ lengthField buf - 4 ≤ heapSize))) := by
  refine ⟨fun stream => ?_, preParsePacket_progresses_iff⟩
  obtain ⟨fs, rest, h⟩ := Framed.exists_framed frameLen_frames stream
  refine ⟨fs, rest, h, framed_lengthField h, ?_⟩
  rintro hok chunks rfl hreads
  have hempty : Framed frameLen [] [] newDocserverConnect.rbuf := .stop (by decide)
  obtain ⟨conn, hrun, hinv, hrest, hpackets⟩ :=
    recvRun_framed chunks connectInv_new hreads hempty rfl h hok
  exact ⟨conn, hrun, hinv.opened, hpackets, hrest, hinv.room⟩

/-- Two packets, the second without a body, and the beginning of a third. -/
def smallStream : List Bytes := [[0, 0], [0, 9, 1, 0, 33], [1, 5, 0, 0, 0, 4, 0, 0], [0, 12, 1]]

theorem framing_chunk_independent_small_stream :
    ∃ conn, recvRun mbSize newDocserverConnect smallStream = .ok conn ∧
      conn.packets = [(.insertQueue, ⟨⟨[1, 0, 33, 1, 5], 0, false⟩, mtMdExeInsert⟩),
        (.queryQueue, ⟨⟨[], 0, true⟩, 0⟩)] ∧ conn.rbuf = [0, 0, 0, 12, 1] := by
  have hframed : Framed frameLen smallStream.flatten
      [[0, 0, 0, 9, 1, 0, 33, 1, 5], [0, 0, 0, 4]] [0, 0, 0, 12, 1] := by
    refine .frame (n := 9) (by decide) (.frame (n := 4) (by decide) (.stop (by decide)))
  have hok : LengthsOk mbSize [[0, 0, 0, 9, 1, 0, 33, 1, 5], [0, 0, 0, 4]] [0, 0, 0, 12, 1] := by
    unfold LengthsOk LengthOk
    decide
  obtain ⟨fs, rest, h, -, hrun⟩ := (framing_chunk_independent mbSize).1 smallStream.flatten
  obtain ⟨rfl, rfl⟩ := h.unique hframed
  obtain ⟨conn, hconn, -, hpackets, hrest, -⟩ := hrun hok smallStream rfl (by decide +kernel)
  exact ⟨conn, hconn, hpackets.trans (by decide), hrest⟩

/-- A length field of 0: `packet_len - 4` is 2^32 - 4, and that many bytes are
copied from a buffer of four, with memory for them; without, `memcpy` writes to
`NULL`.  The iteration does not make progress. -/
theorem zero_length_field_copied :
    ¬ Progresses [0, 0, 0, 0] (preParsePacket (2 ^ 33) [0, 0, 0, 0]) ∧
      recvRun (2 ^ 33) newDocserverConnect [[0, 0, 0, 0]] = .error .stray ∧
      recvRun mbSize newDocserverConnect [[0, 0, 0, 0]] = .error .crash := by
  decide +kernel

end Mile.Protocol
