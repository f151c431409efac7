/-
  Mile.Binlog.TornLog
  ───────────────────
  **READING A LOG THAT ENDS IN A PIECE OF A RECORD.**

  When a piece of a record stands at the end of an older file, `binlog_read_record` goes on in the
  next file, and gives the piece back from an offset of that file.
-/
import Mile.Binlog.RawLog

namespace Mile.Binlog

open Lib Common List

/-! ## §1. What decides whether the bytes can be given back. -/

/-- At absolute position `p` less than a length field is left before the
writer's position: `binlog_read_data` reads nothing there. -/
def NearWriter (writer : Option BlWriter) (p : UInt64) : Prop :=
  match writer with
  | some w => (w.absOffset - p).toNat < 4
  | none => False

instance (writer : Option BlWriter) (p : UInt64) : Decidable (NearWriter writer p) :=
  match writer with
  | some _ => inferInstanceAs (Decidable (_ < _))
  | none => isFalse id

/-- Reading the record at byte `o` of file `i`, at position `p`, does not run
over the end of that file: no file comes behind it, or its length field is in
the file, and so is the rest, unless the writer stands right behind the length
field. -/
abbrev Uncut (writer : Option BlWriter) (files : List Bytes) (p : UInt64) (i o : Nat) : Prop :=
  i + 1 = files.length ∨
    4 ≤ ((files.getD i []).drop o).length ∧
      (NearWriter writer (p + 4) ∨
        recLen ((files.getD i []).drop o) ≤ ((files.getD i []).drop o).length)

/-- A reader at byte `o` of file `i`, at position `p`, can give back what it
reads: it reads nothing, or it stays in its file, or it stands at the end of
its file and stays in the next one. -/
abbrev Kept (writer : Option BlWriter) (files : List Bytes) (p : UInt64) (i o : Nat) : Prop :=
  NearWriter writer p ∨ Uncut writer files p i o ∨
    o = (files.getD i []).length ∧
      ((files.getD (i + 1) []).length < 4 ∨ Uncut writer files p (i + 1) 0)

/-- Where a reader at byte `o` of file `i` stands after it has given its bytes
back: the end of an older file is left for the start of the next one. -/
def standAfter (writer : Option BlWriter) (files : List Bytes) (p : UInt64) (i o : Nat) :
    Nat × Nat :=
  if ¬ NearWriter writer p ∧ i + 1 < files.length ∧ o = (files.getD i []).length then (i + 1, 0)
  else (i, o)

/-- A record of `len` bytes at byte `o` of file `i` is in reach of one call:
each of its two reads, of the length field and of the rest, goes over at most
one end of a file. -/
abbrev InReach (files : List Bytes) (i o len : Nat) : Prop :=
  let here := ((files.getD i []).drop o).length
  let next := (files.getD (i + 1) []).length
  if 4 ≤ here then len ≤ here + next
  else 4 ≤ here + next ∧ len ≤ here + next + (files.getD (i + 2) []).length

theorem getD_of_getElem? {files : List Bytes} {i : Nat} {g : Bytes}
    (h : files[i]? = some g) : files.getD i [] = g := by
  rw [getD_eq_getElem?_getD, h]
  rfl

theorem leNat_take_four (bytes : Bytes) : leNat (bytes.take 4) = recLen bytes := rfl

theorem leNat_four_lt {bytes : Bytes} (h : bytes.length = 4) : leNat bytes < 2 ^ 32 := by
  have hlt : leNat bytes < 256 ^ bytes.length := leNat_lt _
  rw [h] at hlt
  omega

section Read

variable {d : Disk} {items : List FileItem} {files : List Bytes} {writer : Option BlWriter}
  {reader : BlReader} {i o t mem : Nat} {g : Bytes}

theorem caughtWriter_iff :
    caughtWriter writer reader ↔ NearWriter writer (binlogGetPosition writer reader) := by
  cases writer <;> exact Iff.rfl

/-- Going back is arithmetic at 32 bits: by more than the offset it wraps around. -/
theorem AtByte.goBack_mod {n : Nat} (h : AtByte reader writer items i o) (hn : n ≤ 2 ^ 32) :
    AtByte (reader.goBack n) writer items i ((o + 2 ^ 32 - n) % 2 ^ 32) where
  fd_eq := h.fd_eq
  suffix_eq := h.suffix_eq
  pos_eq := h.pos_eq
  offset_eq := by
    show (reader.offset - UInt32.ofNat n).toNat = _
    rw [UInt32.toNat_sub, UInt32.toNat_ofNat', h.offset_eq]
    omega
  index_eq := by cases writer <;> exact h.index_eq

/-! ## §2. A read that returns 0. -/

theorem readBody_eof_cases {head : Bytes} (heof : (readBody d writer mem head reader).1 = .eof) :
    let body := binlogReadData d writer reader (leNat head - 4)
    4 ≤ leNat head ∧ 0 ≤ body.1 ∧
      (readBody d writer mem head reader).2 = body.2.2.goBack (4 + body.1.toNat) := by
  intro body
  by_cases hpool : mem < leNat head ∨ leNat head < 4
  · simp [readBody, hpool] at heof
  by_cases hneg : body.1 < 0
  · simp [readBody, hpool, show (binlogReadData d writer reader (leNat head - 4)).1 < 0 from hneg]
      at heof
  refine ⟨by omega, by omega, ?_⟩
  by_cases hshort : body.1 ≠ (leNat head - 4 : Nat)
  · simp only [readBody, if_neg hpool]
    rw [if_neg hneg, if_pos hshort]
  · simp only [readBody, if_neg hpool] at heof
    rw [if_neg hneg, if_neg hshort] at heof
    exact ReadResult.noConfusion heof

/-- The end is found at the length field or in the body. -/
theorem readRecord_eof_cases (heof : (binlogReadRecord d writer mem reader).1 = .eof) :
    let head := binlogReadData d writer reader 4
    (head.1 ≠ 4 ∧ 0 ≤ head.1 ∧
        (binlogReadRecord d writer mem reader).2 = head.2.2.goBack head.1.toNat) ∨
      (head.1 = 4 ∧ (readBody d writer mem head.2.1 head.2.2).1 = .eof ∧
        (binlogReadRecord d writer mem reader).2
          = (readBody d writer mem head.2.1 head.2.2).2) := by
  intro head
  have heq : binlogReadRecord d writer mem reader
      = if head.1 < 0 then (.error, head.2.2)
        else if head.1 ≠ 4 then (.eof, head.2.2.goBack head.1.toNat)
        else readBody d writer mem head.2.1 head.2.2 := rfl
  by_cases hneg : head.1 < 0
  · rw [heq, if_pos hneg] at heof
    exact ReadResult.noConfusion heof
  by_cases hpart : head.1 ≠ 4
  · left
    rw [heq, if_neg hneg, if_pos hpart]
    exact ⟨hpart, by omega, rfl⟩
  · right
    rw [heq, if_neg hneg, if_neg hpart] at heof ⊢
    exact ⟨not_not.mp hpart, heof, rfl⟩

/-- Behind the length field: either the reader is still in its file, `k` bytes
further, when it goes back; or it has read the rest of that file and is in the
next one. -/
theorem readBody_eof {head : Bytes} (h : RawLog d items files)
    (hat : AtByte reader writer items i t) (hi : files[i]? = some g) (hhead : leNat head < 2 ^ 32)
    (heof : (readBody d writer mem head reader).1 = .eof) :
    ((i + 1 = files.length ∨ caughtWriter writer reader ∨ leNat head ≤ (g.drop t).length + 4) ∧
      ∃ k reader', k < 2 ^ 31 ∧ AtByte reader' writer items i (t + k) ∧
        (readBody d writer mem head reader).2 = reader'.goBack (4 + k)) ∨
    (¬ (i + 1 = files.length ∨ caughtWriter writer reader ∨
        leNat head ≤ (g.drop t).length + 4) ∧ i + 1 < files.length ∧ (g.drop t).length < 2 ^ 31 ∧
      AtByte (readBody d writer mem head reader).2 writer items (i + 1)
        (2 ^ 32 - (4 + (g.drop t).length))) := by
  obtain ⟨hfour, hnonneg, hback⟩ := readBody_eof_cases heof
  rw [hback]
  have hread := h.readData (n := leNat head - 4) hat hi (by omega)
  generalize binlogReadData d writer reader (leNat head - 4) = body at hread hnonneg ⊢
  cases hread with
  | refused _ hneg => omega
  | caught hc => exact .inl ⟨.inr (.inl hc), 0, reader, by decide, hat, rfl⟩
  | here _ hfit hat' hsmall =>
    refine .inl ⟨?_, _, _, hsmall, hat', rfl⟩
    rcases hfit with hfull | hnew
    · exact .inr (.inr (by omega))
    · exact .inl hnew
  | @across reader' next hc hrest hnext hat' hsmall =>
    have hlt := (List.getElem?_eq_some_iff.mp hnext).1
    refine .inr ⟨?_, hlt, by omega, ?_⟩
    · rintro (hnew | hc' | hfull)
      · omega
      · exact hc hc'
      · omega
    · generalize (next.take (leNat head - 4 - (g.drop t).length)).length = e at hat' hsmall ⊢
      have hwrap := hat'.goBack_mod (n := 4 + ((g.drop t).length + e)) (by omega)
      rwa [show (e + 2 ^ 32 - (4 + ((g.drop t).length + e))) % 2 ^ 32
        = 2 ^ 32 - (4 + (g.drop t).length) by omega] at hwrap

/-- Two places of the log with different absolute offsets are different
positions. -/
theorem RawLog.position_ne (h : RawLog d items files) {reader' : BlReader} {j o' : Nat}
    (hat : AtByte reader writer items i o) (hi : i < files.length)
    (hat' : AtByte reader' writer items j o') (hj : j < files.length)
    (hne : (files.take j).flatten.length + o' ≠ (files.take i).flatten.length + o) :
    binlogGetPosition writer reader' ≠ binlogGetPosition writer reader := by
  intro heq
  rw [← h.position hat hi, ← h.position hat' hj, heq] at hne
  exact hne rfl

/-- The position four bytes further. -/
theorem RawLog.position_add_four (h : RawLog d items files) {reader' : BlReader} {j o' : Nat}
    (hat : AtByte reader writer items i o) (hi : i < files.length)
    (hat' : AtByte reader' writer items j o') (hj : j < files.length)
    (heq : (files.take j).flatten.length + o' = (files.take i).flatten.length + o + 4) :
    binlogGetPosition writer reader' = binlogGetPosition writer reader + 4 := by
  have hbound := flatten_take_lt h.size_lt h.count_lt hj
  have ho' : o' < 2 ^ 32 := hat'.offset_eq ▸ reader'.offset.toNat_lt
  rw [← UInt64.toNat_inj, UInt64.toNat_add, h.position hat hi, h.position hat' hj, heq]
  show _ = (_ + 4) % 2 ^ 64
  omega

/-- What a read that returns 0 did to the reader. -/
def GivenBack (d : Disk) (writer : Option BlWriter) (items : List FileItem) (files : List Bytes)
    (mem i o : Nat) (reader : BlReader) : Prop :=
  let p := binlogGetPosition writer reader
  let reader' := (binlogReadRecord d writer mem reader).2
  (Kept writer files p i o ∧
      AtByte reader' writer items (standAfter writer files p i o).1
        (standAfter writer files p i o).2) ∨
    (¬ Kept writer files p i o ∧ binlogGetPosition writer reader' ≠ p)

section Eof

variable (h : RawLog d items files) (hat : AtByte reader writer items i o)

include h hat

/-- The length field was read at byte `t` of file `j`, the place the reader
stood at: the reader is back there, or anywhere else. -/
theorem readBody_givenBack {reader' : BlReader} {j : Nat} (hj : files[j]? = some g)
    (hi : i < files.length) (hat' : AtByte reader' writer items j (t + 4))
    (hfour : 4 ≤ (g.drop t).length)
    (hplace : (files.take j).flatten.length + t = (files.take i).flatten.length + o)
    (heof : (readBody d writer mem ((g.drop t).take 4) reader').1 = .eof) :
    let p := binlogGetPosition writer reader
    let reader'' := (readBody d writer mem ((g.drop t).take 4) reader').2
    (Uncut writer files p j t ∧ AtByte reader'' writer items j t) ∨
      (¬ Uncut writer files p j t ∧ binlogGetPosition writer reader'' ≠ p) := by
  intro p reader''
  have hjlt : j < files.length := (List.getElem?_eq_some_iff.mp hj).1
  have hfile := getD_of_getElem? hj
  have hpos : _ = p + 4 := h.position_add_four hat hi hat' hjlt (by omega)
  have hL : leNat ((g.drop t).take 4) < 2 ^ 32 := leNat_four_lt (by rw [length_take]; omega)
  have hrest : (g.drop (t + 4)).length + 4 = (g.drop t).length := by
    rw [length_drop] at hfour ⊢
    rw [length_drop]
    omega
  rw [Uncut, hfile, ← hpos, ← caughtWriter_iff, ← leNat_take_four, ← hrest]
  rcases readBody_eof h hat' hj hL heof with ⟨hstay, k, reader₃, _, hat₃, hgo⟩
    | ⟨hmove, hnext, hsmall, hat₃⟩
  · refine .inl ⟨hstay.imp_right fun hstay => ⟨hrest ▸ hfour, hstay⟩, ?_⟩
    rw [Nat.add_assoc] at hat₃
    show AtByte (readBody d writer mem _ reader').2 writer items j t
    rw [hgo]
    exact hat₃.goBack
  · refine .inr ⟨fun hc => hmove (hc.imp_right And.right), ?_⟩
    refine h.position_ne hat hi hat₃ hnext ?_
    rw [flatten_take_succ hj]
    rw [length_drop] at hsmall hfour ⊢
    omega

variable (hi : files[i]? = some g)

include hi

/-- The length field was in the reader's file. -/
theorem readRecord_eof_here {reader' : BlReader} (hfar : ¬ caughtWriter writer reader)
    (hfour : 4 ≤ (g.drop o).length) (hat' : AtByte reader' writer items i (o + 4))
    (hbody : (readBody d writer mem ((g.drop o).take 4) reader').1 = .eof)
    (hback : (binlogReadRecord d writer mem reader).2
      = (readBody d writer mem ((g.drop o).take 4) reader').2) :
    GivenBack d writer items files mem i o reader := by
  have hilt : i < files.length := (List.getElem?_eq_some_iff.mp hi).1
  have hfile := getD_of_getElem? hi
  have hin : o ≠ g.length := by
    rw [length_drop] at hfour
    omega
  have hstand : standAfter writer files (binlogGetPosition writer reader) i o = (i, o) := by
    rw [standAfter, if_neg fun hend => hin (hfile ▸ hend.2.2)]
  have hkept : Kept writer files (binlogGetPosition writer reader) i o ↔
      Uncut writer files (binlogGetPosition writer reader) i o := by
    rw [Kept, or_iff_right fun hc => hfar (caughtWriter_iff.mpr hc),
      or_iff_left fun hend => hin (hfile ▸ hend.1)]
  dsimp only [GivenBack]
  rw [hkept, hstand, hback]
  exact readBody_givenBack h hat hi hilt hat' hfour rfl hbody

/-- The length field is a part of the reader's file and a part of the next.
Any byte read from the reader's file is given back in the wrong file. -/
theorem readRecord_eof_across {reader' : BlReader} {next : Bytes}
    (hfar : ¬ caughtWriter writer reader) (hrest : (g.drop o).length < 4)
    (hnext : files[i + 1]? = some next)
    (hat' : AtByte reader' writer items (i + 1) (next.take (4 - (g.drop o).length)).length)
    (hcases :
      ((g.drop o).length + (next.take (4 - (g.drop o).length)).length ≠ 4 ∧
        (binlogReadRecord d writer mem reader).2
          = reader'.goBack ((g.drop o).length + (next.take (4 - (g.drop o).length)).length)) ∨
      ((g.drop o).length + (next.take (4 - (g.drop o).length)).length = 4 ∧
        (readBody d writer mem (g.drop o ++ next.take (4 - (g.drop o).length)) reader').1 = .eof ∧
        (binlogReadRecord d writer mem reader).2
          = (readBody d writer mem (g.drop o ++ next.take (4 - (g.drop o).length)) reader').2)) :
    GivenBack d writer items files mem i o reader := by
  have hnlt : i + 1 < files.length := (List.getElem?_eq_some_iff.mp hnext).1
  have hilt : i < files.length := by omega
  have hlen : (g.drop o).length = g.length - o := length_drop
  have hfile := getD_of_getElem? hi
  have hfar' : ¬ NearWriter writer (binlogGetPosition writer reader) :=
    fun hc => hfar (caughtWriter_iff.mpr hc)
  have hkept : Kept writer files (binlogGetPosition writer reader) i o ↔
      o = g.length ∧ (next.length < 4 ∨
        Uncut writer files (binlogGetPosition writer reader) (i + 1) 0) := by
    rw [Kept, or_iff_right hfar', or_iff_right, hfile, getD_of_getElem? hnext]
    rw [Uncut, hfile]
    omega
  dsimp only [GivenBack]
  rw [hkept]
  by_cases hend : o = g.length
  · have hnil : g.drop o = [] := drop_eq_nil_of_le hend.ge
    have hplace : (files.take (i + 1)).flatten.length + 0 = (files.take i).flatten.length + o := by
      rw [flatten_take_succ hi, hend, Nat.add_zero]
    rw [standAfter, if_pos ⟨hfar', hnlt, by rw [hfile]; exact hend⟩, and_iff_right hend]
    rw [hnil, length_nil, Nat.sub_zero, nil_append, Nat.zero_add] at hcases
    rw [hnil, length_nil, Nat.sub_zero] at hat'
    rcases hcases with ⟨hpart, hback⟩ | ⟨hfull, hbody, hback⟩
    · rw [length_take] at hpart
      refine .inl ⟨.inl (by omega), ?_⟩
      rw [hback]
      exact AtByte.goBack (by rwa [Nat.zero_add])
    · have hfour : 4 ≤ next.length := by
        rw [length_take] at hfull
        omega
      rw [hfull] at hat'
      rw [or_iff_right hfour.not_gt, hback]
      exact readBody_givenBack h hat hnext hilt hat' hfour hplace hbody
  · refine .inr ⟨fun hk => hend hk.1, ?_⟩
    have ho : o < 2 ^ 32 := hat.offset_eq ▸ reader.offset.toNat_lt
    have hlost {reader'' : BlReader} {o' : Nat} (hat'' : AtByte reader'' writer items (i + 1) o')
        (hne : g.length + o' ≠ o) :
        binlogGetPosition writer reader'' ≠ binlogGetPosition writer reader := by
      refine h.position_ne hat hilt hat'' hnlt ?_
      rw [flatten_take_succ hi]
      omega
    generalize hb : (next.take (4 - (g.drop o).length)).length = b at hat' hcases
    rw [length_take] at hb
    rcases hcases with ⟨_, hback⟩ | ⟨hfull, hbody, hback⟩
    · rw [hback]
      exact hlost (hat'.goBack_mod (by omega)) (by omega)
    · rw [hback]
      have hL : leNat (g.drop o ++ next.take (4 - (g.drop o).length)) < 2 ^ 32 :=
        leNat_four_lt (by rw [length_append, length_take]; omega)
      rcases readBody_eof h hat' hnext hL hbody with ⟨_, k, reader'', hk, hat'', hgo⟩
        | ⟨_, hnext2, hsmall, hat''⟩
      · rw [hgo]
        exact hlost (hat''.goBack_mod (by omega)) (by omega)
      · refine h.position_ne hat hilt hat'' hnext2 ?_
        rw [flatten_take_succ hnext, flatten_take_succ hi]
        rw [length_drop] at hsmall ⊢
        omega

/-- **A read that returns 0** leaves the position exactly when its bytes can
be given back. -/
theorem readRecord_givenBack (heof : (binlogReadRecord d writer mem reader).1 = .eof) :
    GivenBack d writer items files mem i o reader := by
  have hilt : i < files.length := (List.getElem?_eq_some_iff.mp hi).1
  have hfile := getD_of_getElem? hi
  have hcases := readRecord_eof_cases heof
  have hread := h.readData (n := 4) hat hi (by decide)
  generalize binlogReadData d writer reader 4 = head at hread hcases
  cases hread with
  | refused hbig _ => omega
  | caught hc =>
    -- nothing was read
    have hnear := caughtWriter_iff.mp hc
    rcases hcases with ⟨_, _, hback⟩ | ⟨hfull, _⟩
    · refine .inl ⟨.inl hnear, ?_⟩
      rw [standAfter, if_neg (fun hno => hno.1 hnear), hback]
      exact hat.goBack
    · exact absurd (show (0 : Int) = 4 from hfull) (by decide)
  | here hc hfit hat' _ =>
    rcases hcases with ⟨hpart, _, hback⟩ | ⟨hfull, hbody, hback⟩
    · have hnew : i + 1 = files.length := by
        rcases hfit with hfour | hnew
        · rw [length_take, Nat.min_eq_left hfour] at hpart
          exact absurd rfl hpart
        · exact hnew
      refine .inl ⟨.inr (.inl (.inl hnew)), ?_⟩
      rw [standAfter, if_neg (fun hno => by omega), hback]
      exact hat'.goBack
    · have hlen : ((g.drop o).take 4).length = 4 := by
        dsimp only at hfull
        omega
      rw [hlen] at hat'
      rw [length_take] at hlen
      exact readRecord_eof_here h hat hi hc (by omega) hat' hbody hback
  | @across reader' next hc hrest hnext hat' _ =>
    refine readRecord_eof_across h hat hi hc hrest hnext hat' ?_
    dsimp only at hcases
    rcases hcases with ⟨hpart, _, hback⟩ | ⟨hfull, hbody, hback⟩
    · exact .inl ⟨by omega, hback⟩
    · exact .inr ⟨by omega, hbody, hback⟩

end Eof

/-! ## §3. A reader in front of a record of the log. -/

section Found

variable {r : Bytes} (h : RawLog d items files)
  (hw : ∀ w, writer = some w → w.absOffset.toNat = files.flatten.length)
  (hr : IsRecord r)

include h hw hr

/-- Behind the length field, the rest of a record is found when it is in this
file and the next. -/
theorem readBody_found (hat : AtByte reader writer items i t) (hi : files[i]? = some g)
    (ht : t ≤ g.length)
    (hpre : r.drop 4 <+: files.flatten.drop ((files.take i).flatten.length + t)) :
    (readBody d writer mem (r.take 4) reader).1 = .record r ↔
      r.length ≤ mem ∧ r.length < 2 ^ 31 + 4 ∧
        r.length ≤ 4 + (g.drop t).length + (files.getD (i + 1) []).length := by
  have hsize : headerSize ≤ r.length := hr.1
  rw [headerSize] at hsize
  have hlen : leNat (r.take 4) = r.length := hr.2
  have hbound : leNat (r.take 4) < 2 ^ 32 := leNat_four_lt (by rw [length_take]; omega)
  have hle := hpre.length_le
  rw [length_drop, length_drop] at hle
  have hcaught : ¬ caughtWriter writer reader := h.not_caught hw hi hat (by omega)
  rw [flatten_drop_at hi ht] at hpre
  have hread := h.readData (n := r.length - 4) hat hi (by omega)
  unfold readBody
  simp only [hlen]
  by_cases hpool : mem < r.length ∨ r.length < 4
  · rw [if_pos hpool]
    exact iff_of_false (by simp) (by omega)
  rw [if_neg hpool]
  generalize binlogReadData d writer reader (r.length - 4) = body at hread
  cases hread with
  | refused hbig hneg =>
    rw [if_pos hneg]
    exact iff_of_false (by simp) (by omega)
  | caught hc => exact absurd hc hcaught
  | here _ hfit _ hsmall =>
    have hall : r.length - 4 ≤ (g.drop t).length := by
      rcases hfit with hfull | hnew
      · exact hfull
      · rw [drop_of_length_le hnew.ge, flatten_nil, append_nil] at hpre
        have := hpre.length_le
        rwa [length_drop] at this
    have hcount : ((g.drop t).take (r.length - 4)).length = r.length - 4 := by
      rw [length_take]
      omega
    have hbytes : (g.drop t).take (r.length - 4) = r.drop 4 := by
      have hin : r.drop 4 <+: g.drop t :=
        prefix_of_prefix_length_le hpre (prefix_append _ _) (by rw [length_drop]; omega)
      rw [← length_drop]
      exact (prefix_iff_eq_take.mp hin).symm
    rw [hcount] at hsmall
    rw [hcount, hbytes, if_neg (by omega), if_neg (by simp), take_append_drop]
    exact iff_of_true rfl ⟨by omega, by omega, by omega⟩
  | @across reader' next _ hrest hnext _ hsmall =>
    have hnfile := getD_of_getElem? hnext
    rw [hnfile, if_neg (by omega)]
    rw [length_take] at hsmall ⊢
    by_cases hreach : r.length ≤ 4 + (g.drop t).length + next.length
    · have hcount : (g.drop t).length + min (r.length - 4 - (g.drop t).length) next.length
          = r.length - 4 := by omega
      have hbytes : g.drop t ++ next.take (r.length - 4 - (g.drop t).length) = r.drop 4 := by
        rw [drop_eq_getElem_cons (List.getElem?_eq_some_iff.mp hnext).1,
          (List.getElem?_eq_some_iff.mp hnext).2, flatten_cons, ← append_assoc] at hpre
        have hin : r.drop 4 <+: g.drop t ++ next :=
          prefix_of_prefix_length_le hpre (prefix_append _ _)
            (by rw [length_append, length_drop]; omega)
        rw [prefix_iff_eq_take.mp hin, take_append, length_drop (l := r),
          take_of_length_le hrest.le]
      rw [hcount] at hsmall
      rw [hcount, hbytes, if_neg (by simp), take_append_drop]
      exact iff_of_true rfl ⟨by omega, by omega, hreach⟩
    · rw [if_pos (by omega)]
      exact iff_of_false (by simp) (fun hall => hreach hall.2.2)

/-- **A reader in front of a record of the log** returns it exactly when it
fits the pool, its byte count fits an `int`, and it is in reach. -/
theorem readRecord_found (hat : AtByte reader writer items i o) (hi : files[i]? = some g)
    (ho : o ≤ g.length)
    (hpre : r <+: files.flatten.drop ((files.take i).flatten.length + o)) :
    (binlogReadRecord d writer mem reader).1 = .record r ↔
      r.length ≤ mem ∧ r.length < 2 ^ 31 + 4 ∧ InReach files i o r.length := by
  have hsize : headerSize ≤ r.length := hr.1
  rw [headerSize] at hsize
  have hle := hpre.length_le
  rw [length_drop] at hle
  have hcaught : ¬ caughtWriter writer reader := h.not_caught hw hi hat (by omega)
  have hfile := getD_of_getElem? hi
  have htail : r.drop 4 <+: files.flatten.drop ((files.take i).flatten.length + o + 4) := by
    rw [← drop_drop]
    exact hpre.drop 4
  have hlog := flatten_drop_at hi ho
  rw [hlog] at hpre
  have hread := h.readData (n := 4) hat hi (by decide)
  have heq : binlogReadRecord d writer mem reader
      = if (binlogReadData d writer reader 4).1 < 0 then
          (.error, (binlogReadData d writer reader 4).2.2)
        else if (binlogReadData d writer reader 4).1 ≠ 4 then
          (.eof, (binlogReadData d writer reader 4).2.2.goBack
            (binlogReadData d writer reader 4).1.toNat)
        else readBody d writer mem (binlogReadData d writer reader 4).2.1
          (binlogReadData d writer reader 4).2.2 := rfl
  rw [heq, InReach, hfile]
  generalize binlogReadData d writer reader 4 = head at hread
  cases hread with
  | refused hbig _ => omega
  | caught hc => exact absurd hc hcaught
  | here _ hfit hat' _ =>
    have hfour : 4 ≤ (g.drop o).length := by
      rcases hfit with hfour | hnew
      · exact hfour
      · rw [drop_of_length_le hnew.ge, flatten_nil, append_nil] at hpre
        have := hpre.length_le
        omega
    have hcount : ((g.drop o).take 4).length = 4 := by
      rw [length_take]
      omega
    have hhead : (g.drop o).take 4 = r.take 4 := by
      rw [← (take_four hr hpre).1, take_append_of_le_length hfour]
    rw [hcount] at hat'
    rw [hcount, hhead, if_neg (by omega), if_neg (by simp), if_pos hfour]
    have hin : o + 4 ≤ g.length := by
      rw [length_drop] at hfour
      omega
    rw [readBody_found h hw hr hat' hi hin htail]
    have hrest : 4 + (g.drop (o + 4)).length = (g.drop o).length := by
      rw [length_drop, length_drop]
      omega
    rw [hrest]
  | @across reader' next _ hrest hnext hat' _ =>
    have hnfile := getD_of_getElem? hnext
    rw [hnfile, if_neg (by omega), if_neg (show ¬ 4 ≤ (g.drop o).length by omega)]
    by_cases hfour : 4 ≤ (g.drop o).length + next.length
    · have hcount : (g.drop o).length + (next.take (4 - (g.drop o).length)).length = 4 := by
        rw [length_take]
        omega
      have hb : (next.take (4 - (g.drop o).length)).length = 4 - (g.drop o).length := by omega
      have hhead : g.drop o ++ next.take (4 - (g.drop o).length) = r.take 4 := by
        rw [drop_eq_getElem_cons (List.getElem?_eq_some_iff.mp hnext).1,
          (List.getElem?_eq_some_iff.mp hnext).2, flatten_cons, ← append_assoc] at hpre
        rw [← (take_four hr hpre).1, take_append_of_le_length (by rw [length_append]; omega),
          take_append, take_of_length_le hrest.le]
      rw [hcount, hhead, if_neg (by simp)]
      rw [hb] at hat'
      have hplace : (files.take i).flatten.length + o + 4
          = (files.take (i + 1)).flatten.length + (4 - (g.drop o).length) := by
        rw [flatten_take_succ hi, length_drop]
        rw [length_drop] at hrest
        omega
      rw [hplace] at htail
      rw [readBody_found h hw hr hat' hnext (by omega) htail]
      have hrest' : 4 + (next.drop (4 - (g.drop o).length)).length
          = (g.drop o).length + next.length := by
        rw [length_drop (l := next)]
        omega
      rw [hrest', and_iff_right hfour]
    · rw [if_pos (by rw [length_take]; omega)]
      exact iff_of_false (by simp) (fun hall => hfour hall.2.2.1)

end Found

end Read

/-! ## §4. When the missing bytes are there. -/

section Later

variable {d d' : Disk} {items items' : List FileItem} {fs : List Bytes} {f more r g : Bytes}
  {writer writer' : Option BlWriter} {reader : BlReader} {i o mem : Nat}

/-- The log after `more` was appended to its newest file; a reader with a
writer sees the writer's new position. -/
structure Appended (items : List FileItem) (writer : Option BlWriter) (fs : List Bytes)
    (f more : Bytes) (d' : Disk) (items' : List FileItem) (writer' : Option BlWriter) :
    Prop where
  raw : RawLog d' items' (fs ++ [f ++ more])
  alone : writer = none → writer' = none ∧ items' = items
  together : ∀ w, writer = some w → ∃ w', writer' = some w' ∧ w'.index.items = items' ∧
    w'.absOffset.toNat = (fs ++ [f ++ more]).flatten.length

theorem Appended.atByte (h : Appended items writer fs f more d' items' writer')
    (hat : AtByte reader writer items i o) : AtByte reader writer' items' i o where
  fd_eq := hat.fd_eq
  suffix_eq := hat.suffix_eq
  pos_eq := hat.pos_eq
  offset_eq := hat.offset_eq
  index_eq := by
    cases writer with
    | none =>
      obtain ⟨rfl, rfl⟩ := h.alone rfl
      exact hat.index_eq
    | some w =>
      obtain ⟨w', rfl, hitems, _⟩ := h.together w rfl
      exact hitems

theorem Appended.abs_eq (h : Appended items writer fs f more d' items' writer') :
    ∀ w', writer' = some w' → w'.absOffset.toNat = (fs ++ [f ++ more]).flatten.length := by
  intro w' hw'
  cases writer with
  | none =>
    rw [(h.alone rfl).1] at hw'
    simp at hw'
  | some w =>
    obtain ⟨w'', hw'', _, habs⟩ := h.together w rfl
    rw [hw''] at hw'
    rw [← Option.some.inj hw']
    exact habs

/-- In front of the same bytes, and inside its file, wherever the reader stands
after it has given its bytes back. -/
theorem standAfter_place {files : List Bytes} {p : UInt64} (hi : i < files.length) :
    let stand := standAfter writer files p i o
    stand.1 < files.length ∧
      (files.take stand.1).flatten.length + stand.2 = (files.take i).flatten.length + o ∧
      (o ≤ (files.getD i []).length → stand.2 ≤ (files.getD stand.1 []).length) := by
  intro stand
  have hfile : files[i]? = some (files.getD i []) := by
    rw [getD_eq_getElem?_getD, getElem?_eq_getElem hi]
    rfl
  by_cases hmove : ¬ NearWriter writer p ∧ i + 1 < files.length ∧ o = (files.getD i []).length
  · have hstand : stand = (i + 1, 0) := by
      show standAfter writer files p i o = _
      rw [standAfter, if_pos hmove]
    rw [hstand]
    refine ⟨hmove.2.1, ?_, fun _ => Nat.zero_le _⟩
    rw [flatten_take_succ hfile, hmove.2.2]
    rfl
  · have hstand : stand = (i, o) := by
      show standAfter writer files p i o = _
      rw [standAfter, if_neg hmove]
    rw [hstand]
    exact ⟨hi, rfl, id⟩

/-- The newest file only grows, and the older ones stay. -/
theorem appended_file (hi : i < (fs ++ [f]).length) :
    ∃ g, (fs ++ [f ++ more])[i]? = some g ∧ ((fs ++ [f]).getD i []).length ≤ g.length ∧
      (fs ++ [f ++ more]).take i = (fs ++ [f]).take i := by
  rw [length_append, length_singleton] at hi
  rw [getD_eq_getElem?_getD]
  rcases Nat.lt_succ_iff_lt_or_eq.mp hi with hlt | rfl
  · refine ⟨fs[i], ?_, ?_, ?_⟩
    · rw [getElem?_append_left hlt, getElem?_eq_getElem hlt]
    · rw [getElem?_append_left hlt, getElem?_eq_getElem hlt]
      exact Nat.le_refl _
    · rw [take_append_of_le_length hlt.le, take_append_of_le_length hlt.le]
  · exact ⟨f ++ more, by simp, by simp, by simp⟩

end Later

def confirmBytes : Bytes := (bareRecord .confirmOk).toBytes

/-- A reader without a writer at the start of a directory with these files. -/
def startReader (files : List Bytes) : BlReader :=
  { fd := 0, suffix := 0, offset := 0, indexItemPos := 0, index := ⟨itemsOf files⟩ }

end Mile.Binlog
