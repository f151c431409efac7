/-
  Mile.DocDb.DyhashTable
  ──────────────────────
  **A TABLE OF THE DYNAMIC HASH INDEX BY WHAT WAS PUT INTO IT.**

  A table is known from the list of the puts it took, newest first: `tableOf log` is the table
  word for word.  The log does not know values whose hash is 0, the mark of free buckets.
-/
import Mile.DocDb.DynamicHashIndex

namespace Mile.DocDb

open Lib Common List Function

/-! ## §1. The table of a list of puts. -/

/-- A docid put in front of a bucket. -/
structure Put where
  slot : Nat
  key : UInt64
  doc : UInt32
  deriving Repr, DecidableEq

def cellsAt : List Put → Nat → List Cell
  | [], _ => []
  | p :: log, s => if p.slot = s then ⟨log.length, p.doc⟩ :: cellsAt log s else cellsAt log s

def keyAt : List Put → Nat → UInt64
  | [], _ => 0
  | p :: log, s => if p.slot = s then p.key else keyAt log s

def tableOf (hashmod : Nat) (hpos : 0 < hashmod) (index : UInt16) :
    List Put → DyhashSingleIndex
  | [] => createSingleIndex hashmod hpos index
  | p :: log => (tableOf hashmod hpos index log).put p.slot p.key p.doc (cellsAt log p.slot)

section Log

variable {hashmod : Nat} {hpos : 0 < hashmod} {index : UInt16} {log : List Put} {s : Nat}

theorem tableOf_hashmod (log : List Put) : (tableOf hashmod hpos index log).hashmod = hashmod := by
  induction log with
  | nil => rfl
  | cons p log ih => exact ih

theorem tableOf_rowLimit (log : List Put) :
    (tableOf hashmod hpos index log).doclist.rowLimit = hashmod * docMultipleNum := by
  induction log with
  | nil => rfl
  | cons p log ih => exact ih

theorem tableOf_version (log : List Put) :
    (tableOf hashmod hpos index log).doclist.version = 0 := by
  induction log with
  | nil => rfl
  | cons p log ih => exact ih

theorem keyAt_cons (p : Put) (log : List Put) :
    keyAt (p :: log) = update (keyAt log) p.slot p.key := by
  funext u
  by_cases hu : p.slot = u
  · subst hu
    rw [update_self, keyAt, if_pos rfl]
  · rw [update_of_ne (Ne.symm hu), keyAt, if_neg hu]

theorem tableOf_key (log : List Put) : (tableOf hashmod hpos index log).key = keyAt log := by
  induction log with
  | nil => rfl
  | cons p log ih => rw [tableOf, tablePut_key, ih, keyAt_cons]

theorem tableOf_curOffset (hlen : log.length ≤ cellBound) :
    (tableOf hashmod hpos index log).doclist.curOffset = log.length := by
  induction log with
  | nil => rfl
  | cons p log ih =>
    have hlt : log.length < cellBound := hlen
    have hcur := ih hlt.le
    rw [tableOf, tablePut_curOffset _ (by rw [hcur]; exact hlt), hcur]
    rfl

theorem cellsAt_pos_lt {c : Cell} : ∀ {log : List Put}, c ∈ cellsAt log s → c.pos < log.length
  | p :: log, hc => by
    unfold cellsAt at hc
    split at hc
    · rcases mem_cons.mp hc with rfl | hc
      · exact Nat.lt_succ_self _
      · exact Nat.lt_succ_of_lt (cellsAt_pos_lt hc)
    · exact Nat.lt_succ_of_lt (cellsAt_pos_lt hc)

theorem cellsAt_doc {c : Cell} : ∀ {log : List Put}, c ∈ cellsAt log s →
    ∃ p ∈ log, p.slot = s ∧ p.doc = c.doc
  | p :: log, hc => by
    unfold cellsAt at hc
    split at hc
    · rename_i hp
      rcases mem_cons.mp hc with rfl | hc
      · exact ⟨p, mem_cons_self, hp, rfl⟩
      · obtain ⟨q, hq, hrest⟩ := cellsAt_doc hc
        exact ⟨q, mem_cons_of_mem _ hq, hrest⟩
    · obtain ⟨q, hq, hrest⟩ := cellsAt_doc hc
      exact ⟨q, mem_cons_of_mem _ hq, hrest⟩

theorem exists_cell {p : Put} : ∀ {log : List Put}, p ∈ log → p.slot = s →
    ∃ c ∈ cellsAt log s, c.doc = p.doc
  | q :: log, hp, hs => by
    unfold cellsAt
    rcases mem_cons.mp hp with rfl | hp
    · rw [if_pos hs]
      exact ⟨_, mem_cons_self, rfl⟩
    · obtain ⟨c, hc, hdoc⟩ := exists_cell hp hs
      split
      · exact ⟨c, mem_cons_of_mem _ hc, hdoc⟩
      · exact ⟨c, hc, hdoc⟩

theorem keyAt_of_nil : ∀ {log : List Put}, cellsAt log s = [] → keyAt log s = 0
  | [], _ => rfl
  | p :: log, h => by
    unfold cellsAt at h
    split at h
    · cases h
    · rename_i hp
      rw [keyAt, if_neg hp]
      exact keyAt_of_nil h

theorem keyAt_mem : ∀ {log : List Put}, cellsAt log s ≠ [] → ∃ p ∈ log, p.slot = s ∧
    p.key = keyAt log s
  | [], h => absurd rfl h
  | p :: log, h => by
    by_cases hp : p.slot = s
    · exact ⟨p, mem_cons_self, hp, by rw [keyAt, if_pos hp]⟩
    · rw [cellsAt, if_neg hp] at h
      obtain ⟨q, hq, hrest⟩ := keyAt_mem h
      rw [keyAt, if_neg hp]
      exact ⟨q, mem_cons_of_mem _ hq, hrest⟩

theorem tableOf_bucket (hlen : log.length ≤ cellBound) (s : Nat) :
    (tableOf hashmod hpos index log).bucket s
      = ⟨keyAt log s, UInt32.ofNat (cellsAt log s).length, headOffset (cellsAt log s)⟩ := by
  induction log with
  | nil => rfl
  | cons p log ih =>
    have hlt : log.length < cellBound := hlen
    have hih := ih hlt.le
    by_cases hs : p.slot = s
    · subst hs
      show update (tableOf hashmod hpos index log).bucket p.slot _ p.slot = _
      rw [update_self, hih, tableOf_curOffset hlt.le, keyAt, if_pos rfl, cellsAt,
        if_pos rfl, length_cons, UInt32.ofNat_add]
      rfl
    · rw [tableOf, tablePut_bucket_of_ne _ (Ne.symm hs), hih, keyAt, if_neg hs, cellsAt, if_neg hs]

def SlotsAscend (log : List Put) : Prop :=
  log.Pairwise fun p q => p.slot = q.slot → q.doc < p.doc

theorem cellsAt_docs_desc : ∀ {log : List Put}, SlotsAscend log →
    ((cellsAt log s).map Cell.doc).Pairwise (· > ·)
  | [], _ => Pairwise.nil
  | p :: log, hasc => by
    obtain ⟨hnew, hold⟩ := pairwise_cons.mp hasc
    have ih := cellsAt_docs_desc hold
    unfold cellsAt
    split
    · rename_i hs
      refine pairwise_cons.mpr ⟨?_, ih⟩
      intro d hd
      obtain ⟨c, hc, rfl⟩ := mem_map.mp hd
      obtain ⟨q, hq, hslot, hdoc⟩ := cellsAt_doc hc
      rw [← hdoc]
      exact hnew q hq (hs.trans hslot.symm)
    · exact ih

/-- The cells of a bucket are its chain. -/
theorem tableOf_chained (hlen : log.length ≤ cellBound) (hasc : SlotsAscend log) (s : Nat) :
    Chained (tableOf hashmod hpos index log).doclist s (cellsAt log s) := by
  induction log with
  | nil => trivial
  | cons p log ih =>
    have hlt : log.length < cellBound := hlen
    obtain ⟨hnew, hold⟩ := pairwise_cons.mp hasc
    have hih := ih hlt.le hold
    have hcur : (tableOf hashmod hpos index log).doclist.curOffset = log.length :=
      tableOf_curOffset hlt.le
    show Chained (((tableOf hashmod hpos index log).doclist.setCell _ p.doc _).setCurOffset _)
      s _
    refine Chained.setCurOffset ?_ _
    rw [hcur, cellsAt]
    by_cases hs : p.slot = s
    · subst hs
      rw [if_pos rfl]
      refine hih.front fun c hc => ⟨cellsAt_pos_lt hc, ?_⟩
      obtain ⟨q, hq, hslot, hdoc⟩ := cellsAt_doc hc
      rw [← hdoc]
      exact hnew q hq hslot.symm
    · rw [if_neg hs]
      exact hih.setCell_of_ne (fun c hc => Nat.ne_of_lt (cellsAt_pos_lt hc)) _ _

end Log

/-! ## §2. The puts a table can have. -/

/-- The puts of a table with `hashmod` buckets. -/
structure PutLog (hashmod : Nat) (log : List Put) : Prop where
  size : hashmod * docMultipleNum ≤ cellBound
  length_le : log.length ≤ hashmod * docMultipleNum
  slot_lt : ∀ p ∈ log, p.slot < hashmod
  key_ne : ∀ p ∈ log, p.key ≠ 0
  /-- All puts at a bucket have its hash. -/
  same_key : ∀ p ∈ log, p.key = keyAt log p.slot
  ascend : SlotsAscend log
  /-- Every hash is where an insert looks for it. -/
  probed : Probed hashmod 0 (homeOf hashmod) (conflictRetryNum + 1) (keyAt log)

theorem putLog_nil {hashmod : Nat} (hsize : hashmod * docMultipleNum ≤ cellBound) :
    PutLog hashmod [] where
  size := hsize
  length_le := Nat.zero_le _
  slot_lt := fun _ hp => nomatch hp
  key_ne := fun _ hp => nomatch hp
  same_key := fun _ hp => nomatch hp
  ascend := Pairwise.nil
  probed := Probed.init _ _ _ _

section Table

variable {hashmod : Nat} {hpos : 0 < hashmod} {index : UInt16} {log : List Put} {s : Nat}
  {d : UInt32} {v : LowData}

theorem homeOf_lt_hashmod (hpos : 0 < hashmod) (k : UInt64) : homeOf hashmod k < hashmod :=
  Nat.mod_lt _ hpos

theorem tableOf_find (bound : Nat) (k : UInt64) :
    (tableOf hashmod hpos index log).find bound k
      = findSlot hashmod 0 (homeOf hashmod) (keyAt log) (bound + 1) k := by
  rw [DyhashSingleIndex.find, tableOf_key, tableOf_hashmod]

variable (h : PutLog hashmod log)

include h

theorem PutLog.length_le_cellBound : log.length ≤ cellBound := h.length_le.trans h.size

theorem PutLog.cellsAt_of_free (hfree : keyAt log s = 0) : cellsAt log s = [] := by
  by_contra hne
  obtain ⟨p, hp, -, hkey⟩ := keyAt_mem hne
  exact h.key_ne p hp (hkey.trans hfree)

/-- One more put. -/
theorem PutLog.cons (hpos : 0 < hashmod) {k : UInt64} (hk : k ≠ 0)
    (hroom : log.length < hashmod * docMultipleNum)
    (hfind : findSlot hashmod 0 (homeOf hashmod) (keyAt log) (conflictRetryNum + 1) k = some s)
    (hlt : ∀ c ∈ cellsAt log s, c.doc < d) : PutLog hashmod (⟨s, k, d⟩ :: log) := by
  obtain ⟨hs, hkey⟩ := findSlot_some (homeOf_lt_hashmod hpos) hfind
  have hkeyAt : keyAt (⟨s, k, d⟩ :: log) = update (keyAt log) s k := keyAt_cons _ log
  refine ⟨h.size, hroom, ?_, ?_, ?_, ?_, ?_⟩
  · intro p hp
    rcases mem_cons.mp hp with rfl | hp
    · exact hs
    · exact h.slot_lt p hp
  · intro p hp
    rcases mem_cons.mp hp with rfl | hp
    · exact hk
    · exact h.key_ne p hp
  · intro p hp
    rw [hkeyAt]
    rcases mem_cons.mp hp with rfl | hp
    · rw [update_self]
    · by_cases hps : p.slot = s
      · rw [hps, update_self, h.same_key p hp, hps]
        refine hkey.resolve_left fun hfree => h.key_ne p hp ?_
        rw [h.same_key p hp, hps]
        exact hfree
      · rw [update_of_ne hps]
        exact h.same_key p hp
  · refine pairwise_cons.mpr ⟨?_, h.ascend⟩
    intro q hq hslot
    obtain ⟨c, hc, hdoc⟩ := exists_cell hq hslot.symm
    rw [← hdoc]
    exact hlt c hc
  · rw [hkeyAt]
    rcases hkey with hfree | hsame
    · exact h.probed.update (homeOf_lt_hashmod hpos) hfind hfree
    · rw [← hsame, Function.update_eq_self]
      exact h.probed

theorem PutLog.headOffset_eq (s : Nat) :
    (if (tableOf hashmod hpos index log).key s = 0 then 0
      else ((tableOf hashmod hpos index log).bucket s).offset) = headOffset (cellsAt log s) := by
  rw [tableOf_key, tableOf_bucket h.length_le_cellBound]
  by_cases hfree : keyAt log s = 0
  · rw [if_pos hfree, h.cellsAt_of_free hfree]
    rfl
  · rw [if_neg hfree]

/-- The put of a docid under a hash, at the bucket where an insert looks for
it. -/
structure NewPut (hashmod : Nat) (log : List Put) (k : UInt64) (d : UInt32) (p : Put) : Prop where
  key : p.key = k
  doc : p.doc = d
  room : log.length < hashmod * docMultipleNum
  find : findSlot hashmod 0 (homeOf hashmod) (keyAt log) (conflictRetryNum + 1) k = some p.slot
  putLog : PutLog hashmod (p :: log)

/-- **An insert into a table**: it asks for a new table, changes nothing since
a docid not smaller is there, or is one more put. -/
theorem PutLog.insert (hlen : v.len ≠ 0) (hk : getHashValue v ≠ 0) (d : UInt32) :
    (tableOf hashmod hpos index log).insert v d = (tableOf hashmod hpos index log, 1) ∨
      ((∃ q ∈ log, q.key = getHashValue v ∧ d ≤ q.doc) ∧
        (tableOf hashmod hpos index log).insert v d = (tableOf hashmod hpos index log, 0)) ∨
      ∃ p : Put, NewPut hashmod log (getHashValue v) d p ∧
        (tableOf hashmod hpos index log).insert v d
          = (tableOf hashmod hpos index (p :: log), 0) := by
  unfold DyhashSingleIndex.insert
  rw [if_neg hlen, tableOf_find]
  cases hfind : findSlot hashmod 0 (homeOf hashmod) (keyAt log) (conflictRetryNum + 1)
      (getHashValue v) with
  | none => exact .inl rfl
  | some s =>
    obtain ⟨hs, hkey⟩ := findSlot_some (homeOf_lt_hashmod hpos) hfind
    have hbound := h.length_le_cellBound
    have hcur : (tableOf hashmod hpos index log).doclist.curOffset = log.length :=
      tableOf_curOffset hbound
    have hlimit : (tableOf hashmod hpos index log).doclist.rowLimit = hashmod * docMultipleNum :=
      tableOf_rowLimit log
    have htkey : (tableOf hashmod hpos index log).key s = 0 ∨
        (tableOf hashmod hpos index log).key s = getHashValue v := by
      rw [tableOf_key]
      exact hkey
    have hcases := bucketInsert_chain (d := d) htkey (h.headOffset_eq s)
      (tableOf_chained hbound h.ascend s)
      (fun c hc => Nat.lt_of_lt_of_le (cellsAt_pos_lt hc) hbound)
      (by rw [hcur, hlimit]; exact h.length_le) (by rw [hlimit]; exact h.size)
    rcases hcases with ⟨-, hins⟩ | ⟨-, ⟨c, hc, hdc⟩, hins⟩ | ⟨hroom, hlt, hins⟩
    · exact .inl hins
    · obtain ⟨q, hq, hslot, hdoc⟩ := cellsAt_doc hc
      have hkeyq : keyAt log s ≠ 0 := by
        rw [← hslot, ← h.same_key q hq]
        exact h.key_ne q hq
      refine .inr (.inl ⟨⟨q, hq, ?_, hdoc ▸ hdc⟩, hins⟩)
      rw [h.same_key q hq, hslot, hkey.resolve_left hkeyq]
    · rw [hcur, hlimit] at hroom
      exact .inr (.inr ⟨⟨s, getHashValue v, d⟩,
        ⟨rfl, rfl, hroom, hfind, h.cons hpos hk hroom hfind hlt⟩, hins⟩)

/-! ## §3. The answers of a table. -/

def answerOf (hashmod : Nat) (log : List Put) (v : LowData) : List UInt32 :=
  if v.len = 0 then []
  else
    match findSlot hashmod 0 (homeOf hashmod) (keyAt log) (docMultipleNum + 1)
        (getHashValue v) with
    | some s => if keyAt log s = 0 then [] else (cellsAt log s).map Cell.doc
    | none => []

def Answered {S : Type} (r : Option (RowidList S)) (ds : List UInt32) : Prop :=
  ResultHolds r ds ∧ (ds = [] → r = none)

omit h in
theorem rowidUnion_answered {S : Type} [Zero S] [Add S] {a b : Option (RowidList S)}
    {xs ys : List UInt32} (ha : Answered a xs) (hb : Answered b ys) :
    ∃ r, rowidUnion a b = some r ∧ Answered r (mergeDesc xs ys) := by
  obtain ⟨r, hunion, hr⟩ := rowidUnion_holds ha.1 hb.1
  refine ⟨r, hunion, hr, fun hnil => ?_⟩
  have hboth : xs = [] ∧ ys = [] := by
    refine ⟨eq_nil_iff_forall_not_mem.mpr fun e he => ?_,
      eq_nil_iff_forall_not_mem.mpr fun e he => ?_⟩
    · have hmem := (mem_mergeDesc xs ys e).mpr (.inl he)
      rw [hnil] at hmem
      cases hmem
    · have hmem := (mem_mergeDesc xs ys e).mpr (.inr he)
      rw [hnil] at hmem
      cases hmem
  rw [ha.2 hboth.1, hb.2 hboth.2] at hunion
  exact (Option.some.inj hunion).symm

/-- A query of a table by its puts. -/
theorem PutLog.query {S : Type} (v : LowData) :
    ∃ r : Option (RowidList S), (tableOf hashmod hpos index log).query v = some r ∧
      Answered r (answerOf hashmod log v) := by
  unfold DyhashSingleIndex.query answerOf
  rw [tableOf_find]
  by_cases hlen : v.len = 0
  · rw [if_pos hlen, if_pos hlen]
    exact ⟨none, rfl, rfl, fun _ => rfl⟩
  · rw [if_neg hlen, if_neg hlen]
    cases findSlot hashmod 0 (homeOf hashmod) (keyAt log) (docMultipleNum + 1)
        (getHashValue v) with
    | none => exact ⟨none, rfl, rfl, fun _ => rfl⟩
    | some s =>
      dsimp only
      rw [tableOf_key]
      by_cases hfree : keyAt log s = 0
      · rw [if_pos hfree, if_pos hfree]
        exact ⟨none, rfl, rfl, fun _ => rfl⟩
      · rw [if_neg hfree, if_neg hfree, tableOf_bucket h.length_le_cellBound]
        have hne : cellsAt log s ≠ [] := fun hnil => hfree (keyAt_of_nil hnil)
        have hchain : Chained (tableOf hashmod hpos index log).doclist s (cellsAt log s) :=
          tableOf_chained h.length_le_cellBound h.ascend s
        obtain ⟨r, hread, hr⟩ := hchain.readHead (S := S) hne
          (fun c hc => by
            rw [tableOf_rowLimit]
            exact Nat.lt_of_lt_of_le (cellsAt_pos_lt hc) h.length_le)
          (by rw [tableOf_rowLimit]; exact h.size)
        exact ⟨r, hread, hr, fun hnil => absurd (map_eq_nil_iff.mp hnil) hne⟩

/-- `count_query`. -/
def DyhashSingleIndex.countQuery (t : DyhashSingleIndex) (data : LowData) : UInt32 :=
  if data.len = 0 then 0
  else
    match t.find docMultipleNum (getHashValue data) with
    | some s => if t.key s = 0 then 0 else (t.bucket s).count
    | none => 0

/-- `count_query` counts the answer. -/
theorem PutLog.countQuery (v : LowData) :
    (tableOf hashmod hpos index log).countQuery v
      = UInt32.ofNat (answerOf hashmod log v).length := by
  unfold DyhashSingleIndex.countQuery answerOf
  rw [tableOf_find]
  by_cases hlen : v.len = 0
  · rw [if_pos hlen, if_pos hlen]
    rfl
  · rw [if_neg hlen, if_neg hlen]
    cases findSlot hashmod 0 (homeOf hashmod) (keyAt log) (docMultipleNum + 1)
        (getHashValue v) with
    | none => rfl
    | some s =>
      dsimp only
      rw [tableOf_key]
      by_cases hfree : keyAt log s = 0
      · rw [if_pos hfree, if_pos hfree]
        rfl
      · rw [if_neg hfree, if_neg hfree, tableOf_bucket h.length_le_cellBound, length_map]

omit h in
theorem answerOf_found (hlen : v.len ≠ 0)
    (hfind : findSlot hashmod 0 (homeOf hashmod) (keyAt log) (docMultipleNum + 1)
      (getHashValue v) = some s ∧ keyAt log s ≠ 0) :
    answerOf hashmod log v = (cellsAt log s).map Cell.doc := by
  unfold answerOf
  rw [if_neg hlen, hfind.1]
  exact if_neg hfind.2

omit h in
theorem answerOf_missing (hmissing : ∀ s,
    ¬ (findSlot hashmod 0 (homeOf hashmod) (keyAt log) (docMultipleNum + 1)
      (getHashValue v) = some s ∧ keyAt log s ≠ 0)) :
    answerOf hashmod log v = [] := by
  unfold answerOf
  split
  · rfl
  · split
    · rename_i s hfind
      exact if_pos (by_contra fun hne => hmissing s ⟨hfind, hne⟩)
    · rfl

/-- **What a put adds to the answers**, when it is at a bucket queries look
at: its docid, for its hash. -/
theorem NewPut.answer {k : UInt64} {p : Put} (hp : NewPut hashmod log k d p)
    (hpos : 0 < hashmod) (hk : k ≠ 0)
    (hreach : findSlot hashmod 0 (homeOf hashmod) (keyAt log) (docMultipleNum + 1) k
      = some p.slot) (v : LowData) :
    answerOf hashmod (p :: log) v
      = if v.len ≠ 0 ∧ getHashValue v = k then d :: answerOf hashmod log v
        else answerOf hashmod log v := by
  have hkeyAt : keyAt (p :: log) = update (keyAt log) p.slot k := by
    rw [keyAt_cons, hp.key]
  have hkey := (findSlot_some (homeOf_lt_hashmod hpos) hp.find).2
  by_cases hlen : v.len = 0
  · rw [if_neg (fun hc => hc.1 hlen)]
    unfold answerOf
    rw [if_pos hlen, if_pos hlen]
  by_cases hsame : getHashValue v = k
  · rw [if_pos ⟨hlen, hsame⟩, answerOf_found (s := p.slot) hlen]
    · rw [cellsAt, if_pos rfl, map_cons, hp.doc]
      congr 1
      by_cases hfree : keyAt log p.slot = 0
      · rw [h.cellsAt_of_free hfree, answerOf_missing]
        · rfl
        · rintro s ⟨hfind, hne⟩
          rw [hsame, hreach] at hfind
          exact hne (Option.some.inj hfind ▸ hfree)
      · exact (answerOf_found hlen ⟨by rw [hsame]; exact hreach, hfree⟩).symm
    · rw [hsame, hkeyAt, update_self]
      exact ⟨findSlot_update_self (homeOf_lt_hashmod hpos) hreach, hk⟩
  · rw [if_neg (fun hc => hsame hc.2)]
    by_cases hzero : getHashValue v = 0
    · -- a probe for the mark of free buckets ends at a free one
      have hmissing : ∀ log : List Put, ∀ s,
          ¬ (findSlot hashmod 0 (homeOf hashmod) (keyAt log) (docMultipleNum + 1)
            (getHashValue v) = some s ∧ keyAt log s ≠ 0) := by
        rintro log s ⟨hfind, hne⟩
        have hend := (findSlot_some (homeOf_lt_hashmod hpos) hfind).2
        rw [hzero, or_self] at hend
        exact hne hend
      rw [answerOf_missing (hmissing _), answerOf_missing (hmissing _)]
    · have hmoved := h.probed.find_update_of_ne (docMultipleNum + 1)
        (hkeyAt ▸ hp.putLog.probed) (homeOf_lt_hashmod hpos) hkey hzero hsame
      rw [← hkeyAt] at hmoved
      by_cases hfound : ∃ s, findSlot hashmod 0 (homeOf hashmod) (keyAt log) (docMultipleNum + 1)
          (getHashValue v) = some s ∧ keyAt log s ≠ 0
      · obtain ⟨s, hs⟩ := hfound
        have hs' := (hmoved s).mpr hs
        have hslot : p.slot ≠ s := by
          rintro rfl
          have hks := (findSlot_some (homeOf_lt_hashmod hpos) hs'.1).2.resolve_left hs'.2
          rw [hkeyAt, update_self] at hks
          exact hsame hks.symm
        rw [answerOf_found hlen hs, answerOf_found hlen hs', cellsAt, if_neg hslot]
      · rw [not_exists] at hfound
        rw [answerOf_missing hfound, answerOf_missing fun s hs => hfound s ((hmoved s).mp hs)]

theorem PutLog.answer_desc (v : LowData) : (answerOf hashmod log v).Pairwise (· > ·) := by
  unfold answerOf
  split
  · exact Pairwise.nil
  · split
    · split
      · exact Pairwise.nil
      · exact cellsAt_docs_desc h.ascend
    · exact Pairwise.nil

theorem PutLog.mem_answer (hpos : 0 < hashmod) (hd : d ∈ answerOf hashmod log v) :
    ∃ p ∈ log, p.key = getHashValue v ∧ p.doc = d := by
  unfold answerOf at hd
  split at hd
  · cases hd
  · split at hd
    · rename_i s hfind
      split at hd
      · cases hd
      · rename_i hne
        obtain ⟨c, hc, rfl⟩ := mem_map.mp hd
        obtain ⟨p, hp, hslot, hdoc⟩ := cellsAt_doc hc
        have hk := (findSlot_some (homeOf_lt_hashmod hpos) hfind).2.resolve_left hne
        exact ⟨p, hp, by rw [h.same_key p hp, hslot, hk], hdoc⟩
    · cases hd

end Table

end Mile.DocDb
