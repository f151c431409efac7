/-
  Mile.DocDb.DyhashRecover
  ────────────────────────
  **RECOVERY OF THE DYNAMIC HASH INDEX** (`dyhash_index_recover`).

  Every table is cut back on its own: the cells in front of the first one whose docid is not below
  the given one give each bucket its newest cell and its count again.
-/
import Mile.DocDb.DyhashCount
import Mile.DocDb.HashIndexRecover

namespace Mile.DocDb

open Lib Common List Function

/-! ## §1. The functions. -/

/-- The first cell whose docid is not below `docid`. -/
def Doclist.firstFrom (l : Doclist) (docid : UInt32) : Option Nat :=
  (List.range l.rowLimit).find? fun i => docid ≤ l.docId (cellAddr i)

/-- One round of the loop over the cells: the cell is followed to the end of
its chain, where the number of the bucket stands. -/
def recoverChain (l : Doclist) (i : Nat) (b : Nat → DyhashBucket) : Option (Nat → DyhashBucket) :=
  if l.docId (cellAddr i) = 0 ∧ l.next (cellAddr i) = 0 then some b
  else
    (follow l.upLink (l.rowLimit + 1) (cellAddr i)).bind fun cells =>
      cells.getLast?.map fun last =>
        let bucketNo := (l.next last &&& 0x7FFFFFFF).toNat
        if (b bucketNo).offset < getOffset i then
          update b bucketNo
            ⟨(b bucketNo).hashValue, UInt32.ofNat cells.length, getOffset i⟩
        else b

/-- The loop over the cells below `i`, from the highest down. -/
def recoverChains (l : Doclist) : Nat → (Nat → DyhashBucket) → Option (Nat → DyhashBucket)
  | 0, b => some b
  | i + 1, b => (recoverChain l i b).bind (recoverChains l i)

def DyhashSingleIndex.cutOffsets (t : DyhashSingleIndex) (maxOffset : UInt32) (s : Nat) :
    DyhashBucket :=
  if s < t.hashmod ∧ maxOffset ≤ (t.bucket s).offset then { t.bucket s with offset := 0 }
  else t.bucket s

def clearBuckets (hashmod : Nat) (b : Nat → DyhashBucket) (s : Nat) : DyhashBucket :=
  if s < hashmod ∧ (b s).offset = 0 then ⟨0, 0, (b s).offset⟩ else b s

/-- `recover`; its return value is always 0.  Cells that lead round in a circle
would be followed for ever: no result. -/
def DyhashSingleIndex.recover (t : DyhashSingleIndex) (docid : UInt32) :
    Option DyhashSingleIndex :=
  match t.doclist.firstFrom docid with
  | none => some t
  | some delDocid =>
    let dl := (t.doclist.setCurOffset delDocid).clearFrom delDocid
    (recoverChains dl delDocid (t.cutOffsets (getOffset delDocid))).map fun b =>
      { t with doclist := dl, bucket := clearBuckets t.hashmod b }

/-- `dyhash_index_recover`; its return value is always 0. -/
def dyhashIndexRecover (T : DyhashIndex) (docid : UInt32) : Option DyhashIndex :=
  (T.front.mapM fun t : DyhashSingleIndex => t.recover docid).bind fun front =>
    (T.tail.recover docid).map fun tail => { T with front := front, tail := tail }

/-! ## §2. More puts on a table. -/

section Words

variable {hashmod : Nat} {hpos : 0 < hashmod} {index : UInt16} {log new old : List Put} {s : Nat}

theorem tableOf_index (log : List Put) : (tableOf hashmod hpos index log).index = index := by
  induction log with
  | nil => rfl
  | cons p log ih => exact ih

variable {a : Nat}

theorem word_setCurOffset_of_ne (l : Doclist) (n : Nat) (ha : a ≠ 0) :
    (l.setCurOffset n).word a = l.word a := update_of_ne ha ..

theorem tableOf_word_cons (p : Put) (hlen : log.length ≤ cellBound) (ha : a ≠ 0)
    (hcell : a ≠ cellAddr log.length) (hnext : a ≠ cellAddr log.length + 4) :
    (tableOf hashmod hpos index (p :: log)).doclist.word a
      = (tableOf hashmod hpos index log).doclist.word a := by
  show (((tableOf hashmod hpos index log).doclist.setCell _ _ _).setCurOffset _).word a = _
  rw [word_setCurOffset_of_ne _ _ ha, tableOf_curOffset hlen]
  exact word_setCell_of_ne _ _ _ hcell hnext

theorem tableOf_word_append (hlen : (new ++ old).length ≤ cellBound) (ha : a ≠ 0)
    (hlt : a < cellAddr old.length) :
    (tableOf hashmod hpos index (new ++ old)).doclist.word a
      = (tableOf hashmod hpos index old).doclist.word a := by
  induction new with
  | nil => rfl
  | cons p new ih =>
    have hle : (new ++ old).length ≤ cellBound := Nat.le_of_succ_le hlen
    have hold : old.length ≤ (new ++ old).length := by
      rw [length_append]
      omega
    rw [cons_append, tableOf_word_cons p hle ha, ih hle]
    · unfold cellAddr at hlt ⊢
      omega
    · unfold cellAddr at hlt ⊢
      omega

theorem tableOf_word_beyond (hlen : log.length ≤ cellBound) (hle : cellAddr log.length ≤ a) :
    (tableOf hashmod hpos index log).doclist.word a = 0 := by
  induction log with
  | nil => rfl
  | cons p log ih =>
    rw [length_cons] at hlen hle
    unfold cellAddr at hle
    rw [tableOf_word_cons p (by omega) (by omega) (by unfold cellAddr; omega)
      (by unfold cellAddr; omega)]
    exact ih (by omega) (by unfold cellAddr; omega)

/-- **Clearing the cells of the later puts** gives the doclist of the earlier
ones. -/
theorem tableOf_cleared (hlog : PutLog hashmod (new ++ old)) :
    ((tableOf hashmod hpos index (new ++ old)).doclist.setCurOffset old.length).clearFrom old.length
      = (tableOf hashmod hpos index old).doclist := by
  have hlen := hlog.length_le_cellBound
  have hbound := hlog.length_le
  have hold : old.length ≤ (new ++ old).length := by
    rw [length_append]
    omega
  have hword : (((tableOf hashmod hpos index (new ++ old)).doclist.setCurOffset
      old.length).clearFrom old.length).word = (tableOf hashmod hpos index old).doclist.word := by
    funext a
    show (if cellAddr old.length ≤ a ∧
        a < cellAddr (tableOf hashmod hpos index (new ++ old)).doclist.rowLimit then 0
      else ((tableOf hashmod hpos index (new ++ old)).doclist.setCurOffset old.length).word a) = _
    rw [tableOf_rowLimit]
    by_cases hcut : cellAddr old.length ≤ a ∧ a < cellAddr (hashmod * docMultipleNum)
    · rw [if_pos hcut, tableOf_word_beyond (hold.trans hlen) hcut.1]
    · rw [if_neg hcut]
      by_cases ha : a = 0
      · -- the word in front of the cells counts them
        subst ha
        have hcur : (tableOf hashmod hpos index old).doclist.curOffset = old.length :=
          tableOf_curOffset (hold.trans hlen)
        show update (tableOf hashmod hpos index (new ++ old)).doclist.word 0
          (UInt32.ofNat old.length) 0 = _
        rw [update_self, ← hcur]
        exact UInt32.ofNat_toNat
      · rw [word_setCurOffset_of_ne _ _ ha]
        by_cases hlt : a < cellAddr old.length
        · exact tableOf_word_append hlen ha hlt
        · rw [tableOf_word_beyond hlen (by unfold cellAddr at hcut hlt ⊢; omega),
            tableOf_word_beyond (hold.trans hlen) (by omega)]
  show (⟨(tableOf hashmod hpos index (new ++ old)).doclist.rowLimit,
    (tableOf hashmod hpos index (new ++ old)).doclist.version, _⟩ : Doclist)
    = ⟨(tableOf hashmod hpos index old).doclist.rowLimit,
      (tableOf hashmod hpos index old).doclist.version, _⟩
  rw [tableOf_rowLimit, tableOf_rowLimit, tableOf_version, tableOf_version]
  exact congrArg _ hword

/-- The newer cells of a bucket stand in front of the older. -/
theorem cellsAt_append (new old : List Put) (s : Nat) : ∃ cs,
    cellsAt (new ++ old) s = cs ++ cellsAt old s ∧ (∀ c ∈ cs, old.length ≤ c.pos) ∧
      (cs = [] → keyAt (new ++ old) s = keyAt old s) ∧ (cs ≠ [] → ∃ p ∈ new, p.slot = s) := by
  induction new with
  | nil => exact ⟨[], rfl, forall_mem_nil _, fun _ => rfl, fun h => absurd rfl h⟩
  | cons p new ih =>
    obtain ⟨cs, hcells, hpos, hkey, hput⟩ := ih
    rw [cons_append, cellsAt, keyAt]
    by_cases hs : p.slot = s
    · rw [if_pos hs, if_pos hs, hcells]
      refine ⟨⟨(new ++ old).length, p.doc⟩ :: cs, rfl, ?_, fun h => absurd h (cons_ne_nil _ _),
        fun _ => ⟨p, mem_cons_self, hs⟩⟩
      intro c hc
      rcases mem_cons.mp hc with rfl | hc
      · show old.length ≤ (new ++ old).length
        rw [length_append]
        omega
      · exact hpos c hc
    · rw [if_neg hs, if_neg hs, hcells]
      refine ⟨cs, rfl, hpos, hkey, fun hne => ?_⟩
      obtain ⟨q, hq, hqs⟩ := hput hne
      exact ⟨q, mem_cons_of_mem _ hq, hqs⟩

theorem exists_split {i : Nat} (hi : i < log.length) :
    ∃ pre p rest, log = pre ++ p :: rest ∧ rest.length = i := by
  refine ⟨log.take (log.length - 1 - i), log[log.length - 1 - i],
    log.drop (log.length - 1 - i + 1), ?_, ?_⟩
  · rw [getElem_cons_drop, take_append_drop]
  · rw [length_drop]
    omega

theorem tableOf_chain_at {pre rest : List Put} {p : Put}
    (hlog : PutLog hashmod (pre ++ p :: rest)) :
    Chained (tableOf hashmod hpos index (pre ++ p :: rest)).doclist p.slot
      (⟨rest.length, p.doc⟩ :: cellsAt rest p.slot) := by
  have hchain : Chained (tableOf hashmod hpos index (pre ++ p :: rest)).doclist p.slot
      (cellsAt (pre ++ p :: rest) p.slot) :=
    tableOf_chained hlog.length_le_cellBound hlog.ascend p.slot
  obtain ⟨cs, hcells, -⟩ := cellsAt_append pre (p :: rest) p.slot
  rw [hcells, cellsAt, if_pos rfl] at hchain
  exact hchain.suffix

theorem cell_slot {pre rest : List Put} {p : Put} {c : Cell}
    (hc : c ∈ cellsAt (pre ++ p :: rest) s) (hpos : c.pos = rest.length) : p.slot = s := by
  obtain ⟨cs, hcells, hge, -⟩ := cellsAt_append pre (p :: rest) s
  rw [hcells, mem_append] at hc
  by_contra hs
  rcases hc with hc | hc
  · have hlt := hge c hc
    rw [length_cons] at hlt
    omega
  · rw [cellsAt, if_neg hs] at hc
    have hlt := cellsAt_pos_lt hc
    omega

end Words

/-! ## §3. One table. -/

section Table

variable {hashmod : Nat} {hpos : 0 < hashmod} {index : UInt16} {new old : List Put} {d : UInt32}
  {b : Nat → DyhashBucket}

theorem tableOf_docId {pre rest : List Put} {p : Put} (hlog : PutLog hashmod (pre ++ p :: rest)) :
    (tableOf hashmod hpos index (pre ++ p :: rest)).doclist.docId (cellAddr rest.length) = p.doc :=
  (tableOf_chain_at hlog).docId_eq _ mem_cons_self

/-- The scan of recovery finds the first cell to be cut. -/
theorem firstFrom_tableOf (hlog : PutLog hashmod (new ++ old)) (hnew : ∀ p ∈ new, d ≤ p.doc)
    (hold : ∀ p ∈ old, p.doc < d) :
    (tableOf hashmod hpos index (new ++ old)).doclist.firstFrom d = some old.length ∨
      (new = [] ∧ (tableOf hashmod hpos index (new ++ old)).doclist.firstFrom d = none) := by
  have hbelow : ∀ i < old.length, ¬ d ≤
      (tableOf hashmod hpos index (new ++ old)).doclist.docId (cellAddr i) := by
    intro i hi
    obtain ⟨pre, p, rest, hsplit, hrest⟩ := exists_split hi
    subst hsplit
    rw [← append_assoc] at hlog ⊢
    rw [← hrest, tableOf_docId hlog]
    exact UInt32.not_le.mpr (hold p (by simp))
  unfold Doclist.firstFrom
  rw [tableOf_rowLimit]
  rcases eq_nil_or_concat new with rfl | ⟨later, p, rfl⟩
  · cases hfirst : (List.range (hashmod * docMultipleNum)).find? fun i =>
        decide (d ≤ (tableOf hashmod hpos index ([] ++ old)).doclist.docId (cellAddr i)) with
    | none => exact .inr ⟨rfl, rfl⟩
    | some i =>
      -- only an unused cell can stop the scan, and then the first one does
      left
      rw [find?_range_eq_some] at hfirst
      obtain ⟨hle, hi, hbefore⟩ := hfirst
      have hge : old.length ≤ i := by
        by_contra hlt
        exact hbelow i (by omega) (of_decide_eq_true hle)
      rcases Nat.eq_or_lt_of_le hge with heq | hlt
      · rw [heq]
      · have hunused : ∀ j, old.length ≤ j →
            (tableOf hashmod hpos index ([] ++ old)).doclist.docId (cellAddr j) = 0 := by
          intro j hj
          exact tableOf_word_beyond hlog.length_le_cellBound
            (by unfold cellAddr; rw [nil_append]; omega)
        have hstop := of_decide_eq_true hle
        rw [hunused i hge] at hstop
        have hpass := hbefore old.length hlt
        rw [hunused _ (le_refl _)] at hpass
        simp [hstop] at hpass
  · left
    rw [find?_range_eq_some]
    rw [concat_eq_append] at hlog hnew hbelow ⊢
    have hlen := hlog.length_le
    simp only [length_append, length_cons, length_nil] at hlen
    refine ⟨?_, mem_range.mpr (by omega), fun j hj => ?_⟩
    · rw [append_assoc, singleton_append] at hlog ⊢
      rw [tableOf_docId hlog]
      exact decide_eq_true (hnew p (by simp))
    · rw [decide_eq_false (hbelow j hj)]
      rfl

/-- While the cells are gone through, down to `i`, each bucket is as it was
after the earlier puts, or still without an offset; those whose newest cell
was reached are as they were. -/
structure Recovering (hashmod : Nat) (hpos : 0 < hashmod) (index : UInt16) (old : List Put)
    (i : Nat) (b : Nat → DyhashBucket) : Prop where
  each : ∀ s, b s = (tableOf hashmod hpos index old).bucket s ∨
    (s < hashmod ∧ (b s).offset = 0 ∧ (cellsAt old s ≠ [] → (b s).hashValue = keyAt old s))
  done : ∀ s c cs, cellsAt old s = c :: cs → i ≤ c.pos →
    b s = (tableOf hashmod hpos index old).bucket s

theorem headOffset_lt {s n : Nat} (hn : n < cellBound) (hlen : old.length ≤ n) :
    headOffset (cellsAt old s) < getOffset n := by
  rw [UInt32.lt_iff_toNat_lt, getOffset_toNat hn]
  cases hcells : cellsAt old s with
  | nil =>
    show (0 : UInt32).toNat < _
    rw [UInt32.toNat_zero]
    unfold cellAddr
    omega
  | cons c cs =>
    have hlt : c.pos < old.length := cellsAt_pos_lt (by rw [hcells]; exact mem_cons_self)
    show (getOffset c.pos).toNat < _
    rw [getOffset_toNat (by omega)]
    unfold cellAddr
    omega

theorem getOffset_le {m n : Nat} (hmn : m ≤ n) (hn : n < cellBound) :
    getOffset m ≤ getOffset n := by
  rw [UInt32.le_iff_toNat_le, getOffset_toNat (by omega), getOffset_toNat hn]
  unfold cellAddr
  omega

/-- The state of the buckets after the cut. -/
theorem recovering_cut (hlog : PutLog hashmod (new ++ old)) (hlt : old.length < cellBound) :
    Recovering hashmod hpos index old old.length
      ((tableOf hashmod hpos index (new ++ old)).cutOffsets (getOffset old.length)) := by
  have hlen := hlog.length_le_cellBound
  refine ⟨fun s => ?_, fun s c cs hcells hle => ?_⟩
  · unfold DyhashSingleIndex.cutOffsets
    rw [tableOf_hashmod, tableOf_bucket hlen, tableOf_bucket hlt.le]
    obtain ⟨cs, hcells, hge, hkey, hput⟩ := cellsAt_append new old s
    rw [hcells]
    cases cs with
    | nil =>
      -- no later put at this bucket
      rw [hkey rfl, nil_append]
      exact .inl (if_neg fun hcut =>
        absurd hcut.2 (UInt32.not_le.mpr (headOffset_lt hlt (le_refl _))))
    | cons c cs =>
      obtain ⟨p, hp, hslot⟩ := hput (cons_ne_nil c cs)
      have hs : s < hashmod := hslot ▸ hlog.slot_lt p (mem_append_left _ hp)
      have hc : c.pos < (new ++ old).length :=
        cellsAt_pos_lt (s := s) (by rw [hcells]; exact mem_cons_self)
      have hcut : getOffset old.length ≤ getOffset c.pos :=
        getOffset_le (hge c mem_cons_self) (by omega)
      rw [if_pos ⟨hs, hcut⟩]
      refine .inr ⟨hs, rfl, fun hne => ?_⟩
      -- an earlier put at the bucket had its hash
      obtain ⟨q, hq, hqs, hqk⟩ := keyAt_mem hne
      show keyAt (new ++ old) s = keyAt old s
      rw [← hqk, hlog.same_key q (mem_append_right _ hq), hqs]
  · have hcell : c.pos < old.length := cellsAt_pos_lt (by rw [hcells]; exact mem_cons_self)
    omega

/-- A cell that is left leads its bucket if nothing newer does. -/
theorem recoverChain_tableOf {pre rest : List Put} {p : Put}
    (hlog : PutLog hashmod (pre ++ p :: rest)) (b : Nat → DyhashBucket) :
    recoverChain (tableOf hashmod hpos index (pre ++ p :: rest)).doclist rest.length b
      = some (if (b p.slot).offset < getOffset rest.length then
          update b p.slot ⟨(b p.slot).hashValue,
            UInt32.ofNat (cellsAt (p :: rest) p.slot).length, getOffset rest.length⟩
        else b) := by
  have hchain : Chained (tableOf hashmod hpos index (pre ++ p :: rest)).doclist p.slot
      (⟨rest.length, p.doc⟩ :: cellsAt rest p.slot) := tableOf_chain_at hlog
  have hbound := hlog.length_le_cellBound
  have hlimit := hlog.length_le
  have hsize := hlog.size
  rw [length_append, length_cons] at hbound hlimit
  have hcells : ∀ c ∈ cellsAt rest p.slot, c.pos < cellBound := fun c hc => by
    have := cellsAt_pos_lt hc
    omega
  have hused := hchain.next_ne_zero hcells
  have hlen := hchain.length_le
  obtain ⟨last, hlast, hnext⟩ := hchain.last_next
  have hslot : p.slot < 2 ^ 31 := by
    have hs := hlog.slot_lt p (by simp)
    unfold cellBound docMultipleNum at hsize
    omega
  have hwalk : follow (tableOf hashmod hpos index (pre ++ p :: rest)).doclist.upLink
      ((tableOf hashmod hpos index (pre ++ p :: rest)).doclist.rowLimit + 1)
      (cellAddr rest.length) = some _ :=
    follow_linked (hchain.upLinked hcells)
      (by rw [length_map, tableOf_rowLimit]; dsimp only at hlen; omega)
  unfold recoverChain
  rw [if_neg (fun h0 => hused h0.2), hwalk]
  rw [map_cons] at hlast
  simp only [Option.bind_some, hlast, Option.map_some, hnext, endMark_bucket hslot]
  rw [cellsAt, if_pos rfl]
  simp only [length_cons, length_map]

/-- **One round**: the bucket of the cell is as it was after the earlier puts,
and the other buckets keep what they had. -/
theorem Recovering.step {i : Nat} (hlog : PutLog hashmod old) (hi : i < old.length)
    (hb : Recovering hashmod hpos index old (i + 1) b) :
    ∃ b', recoverChain (tableOf hashmod hpos index old).doclist i b = some b' ∧
      Recovering hashmod hpos index old i b' := by
  obtain ⟨pre, p, rest, rfl, rfl⟩ := exists_split hi
  have hbound := hlog.length_le_cellBound
  have hcell : rest.length < cellBound := by omega
  refine ⟨_, recoverChain_tableOf hlog b, ?_⟩
  obtain ⟨cs, hcells, hge, -⟩ := cellsAt_append pre (p :: rest) p.slot
  have hbucket : (tableOf hashmod hpos index (pre ++ p :: rest)).bucket p.slot = _ :=
    tableOf_bucket hbound p.slot
  -- other chains do not start with this cell
  have hother : ∀ t, t ≠ p.slot → ∀ c es, cellsAt (pre ++ p :: rest) t = c :: es →
      rest.length ≤ c.pos → b t = (tableOf hashmod hpos index (pre ++ p :: rest)).bucket t := by
    intro t ht c es hct hle
    refine hb.done t c es hct ?_
    rcases Nat.eq_or_lt_of_le hle with heq | hlt
    · exact absurd (cell_slot (by rw [hct]; exact mem_cons_self) heq.symm) (Ne.symm ht)
    · exact hlt
  by_cases hset : b p.slot = (tableOf hashmod hpos index (pre ++ p :: rest)).bucket p.slot
  · -- the bucket has this cell or a higher one already
    have hkeep : ¬ (b p.slot).offset < getOffset rest.length := by
      rw [hset, hbucket, UInt32.not_lt, hcells]
      cases cs with
      | nil =>
        rw [nil_append, cellsAt, if_pos rfl]
        exact UInt32.le_refl _
      | cons c cs =>
        have hc := hge c mem_cons_self
        have hlt : c.pos < (pre ++ p :: rest).length :=
          cellsAt_pos_lt (s := p.slot) (by rw [hcells]; exact mem_cons_self)
        rw [length_cons] at hc
        exact getOffset_le (by omega) (by omega)
    rw [if_neg hkeep]
    refine ⟨hb.each, fun t c es hct hle => ?_⟩
    by_cases ht : t = p.slot
    · rw [ht]
      exact hset
    · exact hother t ht c es hct hle
  · -- otherwise it has no offset yet, and this is its newest cell
    obtain ⟨-, hzero, hkey⟩ := (hb.each p.slot).resolve_left hset
    obtain rfl : cs = [] := by
      cases cs with
      | nil => rfl
      | cons c cs =>
        have hc := hge c mem_cons_self
        exact absurd (hb.done p.slot c _ hcells hc) hset
    rw [nil_append] at hcells
    have hne : cellsAt (pre ++ p :: rest) p.slot ≠ [] := by
      rw [hcells, cellsAt, if_pos rfl]
      exact cons_ne_nil _ _
    have hlt : (b p.slot).offset < getOffset rest.length := by
      rw [hzero, UInt32.lt_iff_toNat_lt, getOffset_toNat hcell, UInt32.toNat_zero]
      unfold cellAddr
      omega
    have hnew : (⟨(b p.slot).hashValue, UInt32.ofNat (cellsAt (p :: rest) p.slot).length,
        getOffset rest.length⟩ : DyhashBucket)
          = (tableOf hashmod hpos index (pre ++ p :: rest)).bucket p.slot := by
      rw [hbucket, hkey hne, hcells, cellsAt, if_pos rfl]
      rfl
    rw [if_pos hlt, hnew]
    refine ⟨fun t => ?_, fun t c es hct hle => ?_⟩
    · by_cases ht : t = p.slot
      · rw [ht, update_self]
        exact .inl rfl
      · rw [update_of_ne ht]
        exact hb.each t
    · by_cases ht : t = p.slot
      · rw [ht, update_self]
      · rw [update_of_ne ht]
        exact hother t ht c es hct hle

theorem Recovering.loop (hlog : PutLog hashmod old) : ∀ {i : Nat} {b : Nat → DyhashBucket},
    i ≤ old.length → Recovering hashmod hpos index old i b →
      ∃ b', recoverChains (tableOf hashmod hpos index old).doclist i b = some b' ∧
        Recovering hashmod hpos index old 0 b'
  | 0, b, _, hb => ⟨b, rfl, hb⟩
  | i + 1, b, hi, hb => by
    obtain ⟨b', hcell, hb'⟩ := hb.step hlog hi
    obtain ⟨b'', hloop, hb''⟩ := Recovering.loop hlog (Nat.le_of_succ_le hi) hb'
    refine ⟨b'', ?_, hb''⟩
    unfold recoverChains
    rw [hcell]
    exact hloop

/-- Buckets without cells are freed at the end. -/
theorem Recovering.clear (hlog : PutLog hashmod old) (hb : Recovering hashmod hpos index old 0 b) :
    clearBuckets hashmod b = (tableOf hashmod hpos index old).bucket := by
  funext s
  have hbucket : (tableOf hashmod hpos index old).bucket s = _ :=
    tableOf_bucket hlog.length_le_cellBound s
  unfold clearBuckets
  cases hcells : cellsAt old s with
  | nil =>
    rw [hcells, keyAt_of_nil hcells] at hbucket
    by_cases hfree : s < hashmod ∧ (b s).offset = 0
    · rw [if_pos hfree, hbucket, hfree.2]
      rfl
    · rw [if_neg hfree]
      exact (hb.each s).resolve_right fun hor => hfree ⟨hor.1, hor.2.1⟩
  | cons c cs =>
    have hdone := hb.done s c cs hcells (Nat.zero_le _)
    have hlt : c.pos < old.length := cellsAt_pos_lt (by rw [hcells]; exact mem_cons_self)
    have hbound := hlog.length_le_cellBound
    have hne : ¬ (b s).offset = 0 := by
      rw [hdone, hbucket, hcells]
      exact getOffset_ne_zero (by omega)
    rw [if_neg fun hfree => hne hfree.2]
    exact hdone

/-- Recovery gives the table of the older puts. -/
theorem PutLog.recover (hlog : PutLog hashmod (new ++ old)) (hold : PutLog hashmod old)
    (hnew : ∀ p ∈ new, d ≤ p.doc) (hlt : ∀ p ∈ old, p.doc < d) :
    (tableOf hashmod hpos index (new ++ old)).recover d =
      some (tableOf hashmod hpos index old) := by
  have hscan : (tableOf hashmod hpos index (new ++ old)).doclist.firstFrom d = some old.length ∨
      _ := firstFrom_tableOf hlog hnew hlt
  unfold DyhashSingleIndex.recover
  rcases hscan with hfirst | ⟨rfl, hnone⟩
  · rw [hfirst]
    have hcell : old.length < cellBound := by
      have hmem := mem_of_find?_eq_some hfirst
      have hsize := hlog.size
      rw [mem_range, tableOf_rowLimit] at hmem
      omega
    have hcut : Recovering hashmod hpos index old old.length _ := recovering_cut hlog hcell
    obtain ⟨b, hloop, hb⟩ := hcut.loop hold (le_refl _)
    simp only [tableOf_cleared hlog, hloop, Option.map_some, tableOf_hashmod, tableOf_index,
      hb.clear hold]
    -- hash size and number of a table are those it was created with
    have hmod : (tableOf hashmod hpos index old).hashmod = hashmod := tableOf_hashmod old
    have hindex : (tableOf hashmod hpos index old).index = index := tableOf_index old
    generalize tableOf hashmod hpos index old = t at hmod hindex
    obtain ⟨_, _, _, _, _⟩ := t
    cases hmod
    cases hindex
    rfl
  · rw [hnone]
    rfl

end Table

end Mile.DocDb
