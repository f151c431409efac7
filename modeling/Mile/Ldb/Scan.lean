/-
  Mile.Ldb.Scan
  ─────────────
  **SCANS OF THE STORE** (`storage/ldb/LdbTableImpl.cpp`, `CondToRange`;
  `storage/ldb/LdbIterator.cpp`).

  `CondToRange` puts the two ends of a query together from the ranges of row key and time, so the
  time is looked at for the first and the last row key only.
-/
import Mile.Ldb.Range
import Mile.Ldb.Comparator
import Mile.Ldb.RowKey

namespace Mile.Ldb

open Lib Common DocDb Execute List

/-! ## §1. The range of keys. -/

/-- Why there is no range: the function returns `-1`, or it writes behind its
buffer. -/
inductive RangeFault where
  | failed
  | overrun
  deriving DecidableEq

/-- `memset` in a buffer. -/
def fill (data : Bytes) (off : Nat) (b : UInt8) (n : Nat) : Except RangeFault Bytes :=
  if off + n ≤ data.length then
    .ok (data.take off ++ replicate n b ++ data.drop (off + n))
  else .error .overrun

def startTime (timeLen : Nat) (time : Range) : Bytes :=
  if time.hasStart then time.start else replicate timeLen 0

def endTime (timeLen : Nat) (time : Range) : Bytes :=
  if time.hasEnd then time.stop else replicate timeLen 0xff

def startKey (timeLen : Nat) (row time : Range) : Except RangeFault Bytes :=
  if row.inclusiveStart then .ok (row.start ++ startTime timeLen time)
  else
    -- set time to maximum
    fill (row.start ++ startTime timeLen time) row.start.length 0xff timeLen

def endKey (timeLen : Nat) (row time : Range) : Except RangeFault Bytes :=
  if row.inclusiveEnd then .ok (row.stop ++ endTime timeLen time)
  else
    -- set time to minimum, at the length of the start
    fill (row.stop ++ endTime timeLen time) row.start.length 0 timeLen

/-- The range between two keys, with the `border` of the two ranges. -/
def keyRange (row time : Range) (start stop : Bytes) : Range where
  inclusiveStart := row.inclusiveStart && (!time.hasStart || time.inclusiveStart)
  inclusiveEnd := row.inclusiveEnd && (!time.hasEnd || time.inclusiveEnd)
  hasStart := true
  hasEnd := true
  invalid := false
  start := start
  stop := stop

/-- The second half of `CondToRange`. -/
def mergeRanges (timeLen : Nat) (row time : Range) : Except RangeFault Range := do
  let start ← startKey timeLen row time
  let stop ← endKey timeLen row time
  return keyRange row time start stop

/-- `LdbTableImpl::CondToRange`. -/
def condToRange (keys : LdbKeys) (conds : List FilterCondition) : Except RangeFault Range :=
  match getRange keys.rowKey keys.timeKey conds with
  | none => .error .failed
  | some (row, time) =>
    if row.invalid || time.invalid then .ok { wholeRange with invalid := true }
    else if !(row.hasStart && row.hasEnd) then .error .failed
    else if keys.timeKeyLen = 0 then .ok row
    else if (time.hasStart && time.start.length ≠ keys.timeKeyLen) ||
        (time.hasEnd && time.stop.length ≠ keys.timeKeyLen) then .error .failed
    else mergeRanges keys.timeKeyLen row time

/-! ## §2. The iterator. -/

/-- `class LdbIterator`: the range, the entries from the current one on, and
`valid_`. -/
structure LdbIterator where
  comparator : LdbComparator
  range : Range
  iter : List (Bytes × Bytes)
  valid : Bool

namespace LdbIterator

def beyond (it : LdbIterator) (key : Bytes) : Bool :=
  let rc := it.comparator.compare key it.range.stop
  rc > 0 || (rc = 0 && !it.range.inclusiveEnd)

def skipStart (it : LdbIterator) : List (Bytes × Bytes) → List (Bytes × Bytes)
  | [] => []
  | e :: es =>
    if !it.range.inclusiveStart && it.comparator.compare e.1 it.range.start = 0 then es
    else e :: es

/-- `LdbIterator::First`. -/
def first (it : LdbIterator) {timeLen : Nat} (db : LevelDb timeLen) : LdbIterator :=
  if it.range.invalid then it
  else
    let iter := it.skipStart (db.seek it.range.start)
    match iter with
    | [] => { it with iter := [] }
    | e :: _ =>
      if it.beyond e.1 then { it with iter := iter }
      else { it with iter := iter, valid := true }

/-- `LdbIterator::Next`. -/
def next (it : LdbIterator) : LdbIterator :=
  if it.valid then
    match it.iter.tail with
    | [] => { it with iter := [], valid := false }
    | e :: es =>
      if it.beyond e.1 then { it with iter := e :: es, valid := false }
      else { it with iter := e :: es }
  else it

theorem next_iter {it : LdbIterator} (h : it.valid = true) : it.next.iter = it.iter.tail := by
  unfold next
  rw [if_pos h]
  split
  · simp_all
  · split <;> simp_all

/-- The items from the current one on: `while (!IsDone()) { CurrentItem(); Next(); }`. -/
def items (it : LdbIterator) : List (Bytes × Bytes) :=
  match _h : it.iter with
  | [] => []
  | e :: _ => if _hvalid : it.valid = true then e :: it.next.items else []
termination_by it.iter.length
decreasing_by
  rw [next_iter _hvalid, _h]
  simp

end LdbIterator

/-- A scan: a new iterator, from `First` on. -/
def scan (comparator : LdbComparator) {timeLen : Nat} (db : LevelDb timeLen) (range : Range) :
    List (Bytes × Bytes) :=
  ((LdbIterator.mk comparator range [] false).first db).items

/-! ## §3. A scan gives the entries between the ends. -/

section Iterator

variable (c : LdbComparator) (range : Range)

def Beyond (key : Bytes) : Bool := (LdbIterator.mk c range [] false).beyond key

theorem items_invalid (iter : List (Bytes × Bytes)) :
    (LdbIterator.mk c range iter false).items = [] := by
  unfold LdbIterator.items
  cases iter <;> simp

theorem items_cons (e : Bytes × Bytes) (es : List (Bytes × Bytes)) :
    (LdbIterator.mk c range (e :: es) true).items =
      e :: (LdbIterator.mk c range (e :: es) true).next.items := by
  rw [LdbIterator.items]
  simp

theorem items_eq (e : Bytes × Bytes) (es : List (Bytes × Bytes)) :
    (LdbIterator.mk c range (e :: es) true).items =
      e :: es.takeWhile fun x => !Beyond c range x.1 := by
  induction es generalizing e with
  | nil =>
    rw [items_cons]
    exact congrArg _ (items_invalid c range [])
  | cons x xs ih =>
    rw [items_cons]
    congr 1
    have hnext : (LdbIterator.mk c range (e :: x :: xs) true).next =
        if Beyond c range x.1 then LdbIterator.mk c range (x :: xs) false
        else LdbIterator.mk c range (x :: xs) true := rfl
    rw [hnext]
    cases hx : Beyond c range x.1 with
    | true =>
      rw [if_pos rfl, items_invalid, takeWhile_cons_of_neg (by simp [hx])]
    | false =>
      rw [if_neg Bool.false_ne_true, ih, takeWhile_cons_of_pos (by simp [hx])]

/-- A scan stops behind the end key. -/
theorem scan_eq_takeWhile {timeLen : Nat} (db : LevelDb timeLen) (hvalid : range.invalid = false) :
    scan c db range =
      ((LdbIterator.mk c range [] false).skipStart (db.seek range.start)).takeWhile
        fun x => !Beyond c range x.1 := by
  unfold scan LdbIterator.first
  rw [if_neg (by simp [hvalid])]
  cases hiter : (LdbIterator.mk c range [] false).skipStart (db.seek range.start) with
  | nil => exact items_invalid c range []
  | cons e es =>
    have hbeyond : (LdbIterator.mk c range [] false).beyond e.1 = Beyond c range e.1 := rfl
    simp only [hbeyond]
    cases he : Beyond c range e.1 with
    | true =>
      rw [if_pos rfl, takeWhile_cons_of_neg (by simp [he])]
      exact items_invalid c range _
    | false =>
      rw [if_neg Bool.false_ne_true, takeWhile_cons_of_pos (by simp [he])]
      exact items_eq c range e es

end Iterator

section Between

variable {timeLen : Nat} (range : Range)

def AfterStart (timeLen : Nat) (key : Bytes) : Prop :=
  ldbRank timeLen range.start < ldbRank timeLen key ∨
    range.inclusiveStart = true ∧ ldbRank timeLen range.start = ldbRank timeLen key

def BeforeEnd (timeLen : Nat) (key : Bytes) : Prop :=
  ldbRank timeLen key < ldbRank timeLen range.stop ∨
    range.inclusiveEnd = true ∧ ldbRank timeLen key = ldbRank timeLen range.stop

instance (timeLen : Nat) : DecidablePred (AfterStart range timeLen) :=
  fun _ => inferInstanceAs (Decidable (_ ∨ _))

instance (timeLen : Nat) : DecidablePred (BeforeEnd range timeLen) :=
  fun _ => inferInstanceAs (Decidable (_ ∨ _))

variable {range}

theorem not_beyond_iff {key : Bytes} (hkey : timeLen ≤ key.length)
    (hstop : timeLen ≤ range.stop.length) :
    (!Beyond ⟨timeLen, false⟩ range key) = true ↔ BeforeEnd range timeLen key := by
  unfold Beyond LdbIterator.beyond BeforeEnd
  simp only [compare_eq hkey hstop]
  rcases lt_trichotomy (ldbRank timeLen key) (ldbRank timeLen range.stop) with h | h | h
  · simp [comp_eq_neg_one.mpr h, h]
  · simp [h, comp_self]
  · simp [comp_eq_one.mpr h, not_lt_of_gt h, h.ne']

/-- The iterator starts behind the start key. -/
theorem skipStart_seek {db : LevelDb timeLen} (htimed : db.Timed)
    (hstart : timeLen ≤ range.start.length) :
    (LdbIterator.mk ⟨timeLen, false⟩ range [] false).skipStart (db.seek range.start) =
      db.entries.filter fun e => AfterStart range timeLen e.1 := by
  have hafter : (db.entries.filter fun e => decide (AfterStart range timeLen e.1)) =
      (db.seek range.start).filter fun e => decide (AfterStart range timeLen e.1) := by
    rw [OrderedStore.seek_eq_filter, filter_filter]
    refine filter_congr fun e _ => ?_
    rw [← Bool.decide_and, decide_eq_decide, and_iff_left_of_imp]
    rintro (h | ⟨-, h⟩)
    · exact h.le
    · exact h.le
  have hseek : ∀ e ∈ db.seek range.start, timeLen ≤ e.1.length ∧
      ldbRank timeLen range.start ≤ ldbRank timeLen e.1 := by
    intro e he
    rw [OrderedStore.seek_eq_filter, mem_filter] at he
    exact ⟨htimed e he.1, of_decide_eq_true he.2⟩
  have hsorted : (db.seek range.start).Pairwise fun a b =>
      ldbRank timeLen a.1 < ldbRank timeLen b.1 :=
    db.sorted.sublist (dropWhile_sublist _)
  rw [hafter]
  generalize db.seek range.start = es at hseek hsorted
  cases es with
  | nil => rfl
  | cons e es =>
    obtain ⟨hhead, -⟩ := pairwise_cons.mp hsorted
    obtain ⟨hlen, hle⟩ := hseek e mem_cons_self
    have hrest : (es.filter fun x => decide (AfterStart range timeLen x.1)) = es :=
      filter_eq_self.mpr fun x hx =>
        decide_eq_true (.inl (lt_of_le_of_lt hle (hhead x hx)))
    unfold LdbIterator.skipStart
    simp only [compare_eq hlen hstart, comp_eq_zero]
    by_cases hat : ldbRank timeLen e.1 = ldbRank timeLen range.start
    · cases hincl : range.inclusiveStart with
      | true =>
        have hin : AfterStart range timeLen e.1 := .inr ⟨hincl, hat.symm⟩
        rw [filter_cons_of_pos (by simpa using hin), hrest]
        rfl
      | false =>
        have hout : ¬AfterStart range timeLen e.1 := by
          rintro (h | ⟨h, -⟩)
          · exact h.ne' hat
          · exact absurd h (by simp [hincl])
        rw [filter_cons_of_neg (by simpa using hout), hrest]
        simp [hat]
    · have hin : AfterStart range timeLen e.1 := .inl (lt_of_le_of_ne hle (Ne.symm hat))
      rw [filter_cons_of_pos (by simpa using hin), hrest]
      simp [hat]

/-- **A scan gives the entries between the ends**, in the order of the store. -/
theorem scan_eq_filter {db : LevelDb timeLen} (htimed : db.Timed)
    (hstart : timeLen ≤ range.start.length) (hstop : timeLen ≤ range.stop.length)
    (hvalid : range.invalid = false) :
    scan ⟨timeLen, false⟩ db range =
      db.entries.filter fun e => AfterStart range timeLen e.1 ∧ BeforeEnd range timeLen e.1 := by
  have hbefore : ∀ e ∈ db.entries, (!Beyond ⟨timeLen, false⟩ range e.1) =
      decide (BeforeEnd range timeLen e.1) := fun e he => by
    rw [Bool.eq_iff_iff, not_beyond_iff (htimed e he) hstop, decide_eq_true_iff]
  rw [scan_eq_takeWhile _ _ _ hvalid, skipStart_seek htimed hstart, takeWhile_eq_filter,
    filter_filter]
  · refine filter_congr fun e he => ?_
    rw [hbefore e he, Bool.and_comm]
    simp
  · -- an entry before the end has only such entries before it
    refine (db.sorted.imp_of_mem fun {a b} ha hb hab => ?_).filter _
    rw [hbefore a ha, hbefore b hb, decide_eq_true_iff, decide_eq_true_iff]
    rintro (h | ⟨-, h⟩)
    · exact .inl (hab.trans h)
    · exact .inl (h ▸ hab)

end Between

/-! ## §4. The entries the conditions ask for. -/

def timeRank (time : Bytes) : List Int := [(leNat time : Int)]

def InRanges (timeLen : Nat) (row time : Range) (key : Bytes) : Prop :=
  row.Holds rowRank (rowRank (keyRow timeLen key)) ∧
    time.Holds timeRank [(keyTime timeLen key : Int)]

instance {α : Type} [LinearOrder α] (x : α) : DecidablePred (Bound.Holds x)
  | .lower _ _ => inferInstanceAs (Decidable (_ ∨ _))
  | .upper _ _ => inferInstanceAs (Decidable (_ ∨ _))

instance (key : Bytes → List Int) (range : Range) : DecidablePred (range.Above key) :=
  fun _ => inferInstanceAs (Decidable (_ → _))

instance (key : Bytes → List Int) (range : Range) : DecidablePred (range.Below key) :=
  fun _ => inferInstanceAs (Decidable (_ → _))

instance (key : Bytes → List Int) (range : Range) : DecidablePred (range.Holds key) :=
  fun _ => inferInstanceAs (Decidable (_ ∧ _ ∧ _))

instance (timeLen : Nat) (row time : Range) : DecidablePred (InRanges timeLen row time) :=
  fun _ => inferInstanceAs (Decidable (_ ∧ _))

section Merge

variable {timeLen : Nat} {row time range : Range}

theorem ldbRank_append {r t : Bytes} (ht : t.length = timeLen) :
    ldbRank timeLen (r ++ t) = toLex (rowRank r, leNat t) := by
  have hlen : (r ++ t).length - timeLen = r.length := by simp [ht]
  unfold ldbRank keyRow keyTime
  rw [hlen, take_left, drop_left]

theorem fill_append {r t : Bytes} (ht : t.length = timeLen) (b : UInt8) :
    fill (r ++ t) r.length b timeLen = .ok (r ++ replicate timeLen b) := by
  have hdrop : (r ++ t).drop (r.length + timeLen) = [] := by
    apply drop_of_length_le
    simp [ht]
  unfold fill
  rw [if_pos (by simp [ht]), take_left, hdrop, append_nil]

theorem leNat_replicate_zero (n : Nat) : leNat (replicate n 0) = 0 := by
  induction n with
  | zero => rfl
  | succ n ih => simp [replicate_succ, leNat, ih]

theorem leNat_replicate_max (n : Nat) : leNat (replicate n 0xff) + 1 = 256 ^ n := by
  induction n with
  | zero => rfl
  | succ n ih =>
    rw [replicate_succ, leNat, pow_succ, ← ih]
    show 255 + _ + 1 = _
    omega

variable {key : Bytes}

theorem keyTime_lt (hlen : timeLen ≤ key.length) : keyTime timeLen key < 256 ^ timeLen := by
  have hdrop : (key.drop (key.length - timeLen)).length = timeLen := by
    simp
    omega
  exact lt_of_lt_of_eq (leNat_lt _) (congrArg _ hdrop)

variable {r : List Int} {t : Nat}

theorem toLex_lt_ldbRank :
    toLex (r, t) < ldbRank timeLen key ↔
      r < rowRank (keyRow timeLen key) ∨ r = rowRank (keyRow timeLen key) ∧
        t < keyTime timeLen key :=
  Prod.Lex.toLex_lt_toLex

theorem ldbRank_lt_toLex :
    ldbRank timeLen key < toLex (r, t) ↔
      rowRank (keyRow timeLen key) < r ∨ rowRank (keyRow timeLen key) = r ∧
        keyTime timeLen key < t :=
  Prod.Lex.toLex_lt_toLex

theorem ldbRank_eq_toLex :
    ldbRank timeLen key = toLex (r, t) ↔
      rowRank (keyRow timeLen key) = r ∧ keyTime timeLen key = t := by
  unfold ldbRank
  rw [toLex_inj, Prod.mk.injEq]

theorem toLex_eq_ldbRank :
    toLex (r, t) = ldbRank timeLen key ↔
      r = rowRank (keyRow timeLen key) ∧ t = keyTime timeLen key := by
  rw [eq_comm, ldbRank_eq_toLex, @eq_comm _ r, @eq_comm _ t]

theorem above_timeRank :
    time.Above timeRank [(t : Int)] ↔
      (time.hasStart = true → leNat time.start < t ∨
        time.inclusiveStart = true ∧ leNat time.start = t) := by
  simp [Range.Above, Bound.Holds, timeRank, cons_lt_cons_iff]

theorem below_timeRank :
    time.Below timeRank [(t : Int)] ↔
      (time.hasEnd = true → t < leNat time.stop ∨
        time.inclusiveEnd = true ∧ t = leNat time.stop) := by
  simp [Range.Below, Bound.Holds, timeRank, cons_lt_cons_iff]

theorem startTime_length (hsize : time.hasStart = true → time.start.length = timeLen) :
    (startTime timeLen time).length = timeLen := by
  unfold startTime
  split_ifs with h
  · exact hsize h
  · exact length_replicate

theorem endTime_length (hsize : time.hasEnd = true → time.stop.length = timeLen) :
    (endTime timeLen time).length = timeLen := by
  unfold endTime
  split_ifs with h
  · exact hsize h
  · exact length_replicate

/-- **The start of the keys**: behind the first row key, or at it with a time
behind the first time. -/
theorem afterStart_iff (hsize : time.hasStart = true → time.start.length = timeLen)
    (hkey : startKey timeLen row time = .ok range.start)
    (hincl : range.inclusiveStart = (row.inclusiveStart && (!time.hasStart || time.inclusiveStart)))
    (hlen : timeLen ≤ key.length) :
    AfterStart range timeLen key ↔
      rowRank row.start < rowRank (keyRow timeLen key) ∨
        rowRank row.start = rowRank (keyRow timeLen key) ∧ row.inclusiveStart = true ∧
          time.Above timeRank [(keyTime timeLen key : Int)] := by
  have htime := startTime_length hsize
  unfold startKey at hkey
  unfold AfterStart
  rw [above_timeRank, hincl]
  cases hrow : row.inclusiveStart with
  | true =>
    rw [if_pos hrow] at hkey
    rw [← Except.ok.inj hkey, ldbRank_append htime, toLex_lt_ldbRank, toLex_eq_ldbRank]
    unfold startTime
    cases hstart : time.hasStart with
    | true =>
      simp only [if_true, Bool.not_true, Bool.false_or, Bool.true_and, true_and, true_implies]
      grind
    | false =>
      -- from the time 0 on there are all times
      rw [if_neg Bool.false_ne_true, leNat_replicate_zero]
      simp only [Bool.not_false, Bool.true_or, Bool.and_true, true_and, Bool.false_eq_true,
        false_implies, and_true]
      have := Nat.eq_zero_or_pos (keyTime timeLen key)
      grind
  | false =>
    rw [if_neg (by simp [hrow]), fill_append htime] at hkey
    rw [← Except.ok.inj hkey, ldbRank_append length_replicate, toLex_lt_ldbRank]
    have hmax := leNat_replicate_max timeLen
    have htime' := keyTime_lt hlen
    simp only [Bool.false_and, Bool.false_eq_true, false_and, and_false, or_false]
    exact ⟨fun h => h.resolve_right fun h => by omega, .inl⟩

/-- **The end of the keys**: before the last row key, or at it with a time before
the last time.  An exclusive row key must be as long as the first one. -/
theorem beforeEnd_iff (hsize : time.hasEnd = true → time.stop.length = timeLen)
    (hend : row.inclusiveEnd = true ∨ row.start.length = row.stop.length)
    (hkey : endKey timeLen row time = .ok range.stop)
    (hincl : range.inclusiveEnd = (row.inclusiveEnd && (!time.hasEnd || time.inclusiveEnd)))
    (hlen : timeLen ≤ key.length) :
    BeforeEnd range timeLen key ↔
      rowRank (keyRow timeLen key) < rowRank row.stop ∨
        rowRank (keyRow timeLen key) = rowRank row.stop ∧ row.inclusiveEnd = true ∧
          time.Below timeRank [(keyTime timeLen key : Int)] := by
  have htime := endTime_length hsize
  unfold endKey at hkey
  unfold BeforeEnd
  rw [below_timeRank, hincl]
  cases hrow : row.inclusiveEnd with
  | true =>
    rw [if_pos hrow] at hkey
    rw [← Except.ok.inj hkey, ldbRank_append htime, ldbRank_lt_toLex, ldbRank_eq_toLex]
    unfold endTime
    cases hstop : time.hasEnd with
    | true =>
      simp only [if_true, Bool.not_true, Bool.false_or, Bool.true_and, true_and, true_implies]
      grind
    | false =>
      -- up to the last time there are all times
      have hmax := leNat_replicate_max timeLen
      have htime' := keyTime_lt hlen
      rw [if_neg Bool.false_ne_true]
      simp only [Bool.not_false, Bool.true_or, Bool.and_true, true_and, Bool.false_eq_true,
        false_implies, and_true]
      have : keyTime timeLen key < leNat (replicate timeLen 0xff) ∨
          keyTime timeLen key = leNat (replicate timeLen 0xff) := by omega
      grind
  | false =>
    have heq := hend.resolve_left (by simp [hrow])
    rw [if_neg (by simp [hrow]), heq, fill_append htime] at hkey
    rw [← Except.ok.inj hkey, ldbRank_append length_replicate, ldbRank_lt_toLex,
      leNat_replicate_zero]
    simp

end Merge

/-! ## §5. Scans of a query. -/

section Query

variable {keys : LdbKeys} {conds : List FilterCondition} {row time : Range}

/-- The time is in its range as far as a scan looks: at the first row key it is
behind the start, and at the last one before the end. -/
def TimeAtEnds (timeLen : Nat) (row time : Range) (key : Bytes) : Prop :=
  (rowRank row.start = rowRank (keyRow timeLen key) →
    time.Above timeRank [(keyTime timeLen key : Int)]) ∧
  (rowRank (keyRow timeLen key) = rowRank row.stop →
    time.Below timeRank [(keyTime timeLen key : Int)])

instance (timeLen : Nat) (row time : Range) : DecidablePred (TimeAtEnds timeLen row time) :=
  fun _ => inferInstanceAs (Decidable (_ ∧ _))

/-- Behind the first row key, or at it with a time behind the first time. -/
def PassesStart (timeLen : Nat) (row time : Range) (key : Bytes) : Prop :=
  rowRank row.start < rowRank (keyRow timeLen key) ∨
    rowRank row.start = rowRank (keyRow timeLen key) ∧ row.inclusiveStart = true ∧
      time.Above timeRank [(keyTime timeLen key : Int)]

instance (timeLen : Nat) (row time : Range) : DecidablePred (PassesStart timeLen row time) :=
  fun _ => inferInstanceAs (Decidable (_ ∨ _))

/-- The end key of a row end that is exclusive and longer than the row start:
`memset` clears bytes of the row key. -/
def clearedEnd (timeLen : Nat) (row time : Range) : Bytes :=
  (row.stop ++ endTime timeLen time).take row.start.length ++ replicate timeLen 0 ++
    (row.stop ++ endTime timeLen time).drop (row.start.length + timeLen)

/-- The stored rows for which a scan over valid ranges is exact.  If the row end
is inclusive or as long as the start: each row in the row range whose time is
in the time range as far as the ends ask, has its time there.  If it is longer
than the start: each row that passes the start is before the cleared end exactly
if it is in both ranges.  If it is shorter, none. -/
def ScanRight {timeLen : Nat} (row time : Range) (db : LevelDb timeLen) : Prop :=
  if row.inclusiveEnd = true ∨ row.start.length = row.stop.length then
    ∀ e ∈ db.entries, row.Holds rowRank (rowRank (keyRow timeLen e.1)) →
      TimeAtEnds timeLen row time e.1 → time.Holds timeRank [(keyTime timeLen e.1 : Int)]
  else row.start.length < row.stop.length ∧
    ∀ e ∈ db.entries, PassesStart timeLen row time e.1 →
      (ldbRank timeLen e.1 < ldbRank timeLen (clearedEnd timeLen row time) ↔
        rowRank (keyRow timeLen e.1) < rowRank row.stop ∧
          time.Holds timeRank [(keyTime timeLen e.1 : Int)])

theorem filter_eq_filter_iff {γ : Type} {p q : γ → Bool} {l : List γ} :
    l.filter p = l.filter q ↔ ∀ x ∈ l, p x = q x := by
  refine ⟨fun h x hx => ?_, filter_congr⟩
  have hmem : x ∈ l.filter p ↔ x ∈ l.filter q := by rw [h]
  rw [Bool.eq_iff_iff]
  simpa [hx] using hmem

section Sized

variable {timeLen : Nat} (hstart : time.hasStart = true → time.start.length = timeLen)
  (hstop : time.hasEnd = true → time.stop.length = timeLen)

include hstart in
theorem startKey_ok : ∃ start, startKey timeLen row time = .ok start ∧ timeLen ≤ start.length := by
  have htime := startTime_length hstart
  unfold startKey
  split_ifs with hrow
  · exact ⟨_, rfl, by simp [htime]⟩
  · exact ⟨_, fill_append htime _, by simp⟩

include hstop in
theorem endKey_ok (hend : row.inclusiveEnd = true ∨ row.start.length = row.stop.length) :
    ∃ stop, endKey timeLen row time = .ok stop ∧ timeLen ≤ stop.length := by
  have htime := endTime_length hstop
  unfold endKey
  split_ifs with hrow
  · exact ⟨_, rfl, by simp [htime]⟩
  · rw [hend.resolve_left hrow]
    exact ⟨_, fill_append htime _, by simp⟩

theorem mergeRanges_eq {start stop : Bytes} (hs : startKey timeLen row time = .ok start)
    (he : endKey timeLen row time = .ok stop) :
    mergeRanges timeLen row time = .ok (keyRange row time start stop) := by
  unfold mergeRanges
  rw [hs, he]
  rfl

section Exclusive

variable (hexcl : row.inclusiveEnd = false)

include hexcl hstop

/-- A row end shorter than the start is cleared behind its buffer. -/
theorem endKey_overrun (hlt : row.stop.length < row.start.length) :
    endKey timeLen row time = .error .overrun := by
  have htime := endTime_length hstop
  rw [endKey, if_neg (by simp [hexcl]), fill, if_neg]
  rw [length_append, htime]
  omega

theorem endKey_cleared (hlt : row.start.length < row.stop.length) :
    endKey timeLen row time = .ok (clearedEnd timeLen row time) ∧
      timeLen ≤ (clearedEnd timeLen row time).length := by
  have htime := endTime_length hstop
  refine ⟨?_, by simp only [clearedEnd, length_append, length_replicate]; omega⟩
  rw [endKey, if_neg (by simp [hexcl]), fill, if_pos]
  · rfl
  · rw [length_append, htime]
    omega

end Exclusive

include hstart in
/-- **A scan gives the rows that pass both ends.** -/
theorem scan_merged {start stop : Bytes} (hs : startKey timeLen row time = .ok start)
    (hslen : timeLen ≤ start.length) (helen : timeLen ≤ stop.length) {db : LevelDb timeLen}
    (htimed : db.Timed) :
    (scan ⟨timeLen, false⟩ db (keyRange row time start stop) =
        db.entries.filter fun e => InRanges timeLen row time e.1) ↔
      ∀ e ∈ db.entries, (PassesStart timeLen row time e.1 ∧
        BeforeEnd (keyRange row time start stop) timeLen e.1 ↔ InRanges timeLen row time e.1) := by
  rw [scan_eq_filter htimed hslen helen rfl, filter_eq_filter_iff]
  refine forall₂_congr fun e he => ?_
  rw [Bool.eq_iff_iff, decide_eq_true_iff, decide_eq_true_iff,
    @afterStart_iff _ _ _ (keyRange row time start stop) _ hstart hs rfl (htimed e he)]
  exact Iff.rfl

/-- What is in both ranges passes the start. -/
theorem InRanges.passesStart (hrow : row.hasStart = true) {key : Bytes}
    (h : InRanges timeLen row time key) : PassesStart timeLen row time key := by
  rcases h.1.2.1 hrow with hlt | ⟨hincl, heq⟩
  · exact .inl hlt
  · exact .inr ⟨heq, hincl, h.2.2.1⟩

theorem PassesStart.above {key : Bytes} (h : PassesStart timeLen row time key) :
    row.Above rowRank (rowRank (keyRow timeLen key)) := by
  intro _
  rcases h with hlt | ⟨heq, hincl, -⟩
  · exact .inl hlt
  · exact .inr ⟨hincl, heq⟩

include hstart hstop in
/-- A scan over valid ranges, by how the row end is built. -/
theorem merged_exact_iff (hrow : row.hasStart = true ∧ row.hasEnd = true)
    (hvalid : row.invalid = false) {db : LevelDb timeLen} (htimed : db.Timed) :
    (∃ range, mergeRanges timeLen row time = .ok range ∧ scan ⟨timeLen, false⟩ db range =
        db.entries.filter fun e => InRanges timeLen row time e.1) ↔
      ScanRight row time db := by
  obtain ⟨start, hs, hslen⟩ := @startKey_ok row _ _ hstart
  have hmerged {stop : Bytes} (he : endKey timeLen row time = .ok stop)
      (helen : timeLen ≤ stop.length) :
      (∃ range, mergeRanges timeLen row time = .ok range ∧ scan ⟨timeLen, false⟩ db range =
          db.entries.filter fun e => InRanges timeLen row time e.1) ↔
        ∀ e ∈ db.entries, (PassesStart timeLen row time e.1 ∧
          BeforeEnd (keyRange row time start stop) timeLen e.1 ↔
            InRanges timeLen row time e.1) := by
    rw [mergeRanges_eq hs he]
    simp only [Except.ok.injEq, exists_eq_left']
    exact scan_merged hstart hs hslen helen htimed
  unfold ScanRight
  split_ifs with hend
  · obtain ⟨stop, he, helen⟩ := endKey_ok hstop hend
    rw [hmerged he helen]
    refine forall₂_congr fun e hmem => ?_
    rw [@beforeEnd_iff _ _ _ (keyRange row time start stop) _ hstop hend he rfl (htimed e hmem)]
    constructor
    · rintro h ⟨-, habove, hbelow⟩ ⟨hfirst, hlast⟩
      refine (h.mp ⟨?_, ?_⟩).2
      · rcases habove hrow.1 with hlt | ⟨hincl, heq⟩
        · exact .inl hlt
        · exact .inr ⟨heq, hincl, hfirst heq⟩
      · rcases hbelow hrow.2 with hlt | ⟨hincl, heq⟩
        · exact .inl hlt
        · exact .inr ⟨heq, hincl, hlast heq⟩
    · intro h
      refine ⟨fun ⟨hpass, hbefore⟩ => ?_, fun hin => ⟨hin.passesStart hrow.1, ?_⟩⟩
      · have hbelow : row.Below rowRank (rowRank (keyRow timeLen e.1)) := by
          intro _
          rcases hbefore with hlt | ⟨heq, hincl, -⟩
          · exact .inl hlt
          · exact .inr ⟨hincl, heq⟩
        have hholds : row.Holds rowRank (rowRank (keyRow timeLen e.1)) :=
          ⟨hvalid, hpass.above, hbelow⟩
        refine ⟨hholds, h hholds ⟨fun heq => ?_, fun heq => ?_⟩⟩
        · exact (hpass.resolve_left heq.not_lt).2.2
        · exact (hbefore.resolve_left heq.not_lt).2.2
      · rcases hin.1.2.2 hrow.2 with hlt | ⟨hincl, heq⟩
        · exact .inl hlt
        · exact .inr ⟨heq, hincl, hin.2.2.2⟩
  · obtain ⟨hexcl, hne⟩ := not_or.mp hend
    rw [Bool.not_eq_true] at hexcl
    rcases Nat.lt_or_gt_of_ne hne with hlt | hgt
    · obtain ⟨he, helen⟩ := endKey_cleared hstop hexcl hlt
      rw [hmerged he helen, and_iff_right hlt]
      refine forall₂_congr fun e _ => ?_
      -- the end is exclusive, for the row key and for the whole key
      have hbefore : BeforeEnd (keyRange row time start (clearedEnd timeLen row time)) timeLen e.1 ↔
          ldbRank timeLen e.1 < ldbRank timeLen (clearedEnd timeLen row time) := by
        simp [BeforeEnd, keyRange, hexcl]
      have hin : InRanges timeLen row time e.1 ↔
          PassesStart timeLen row time e.1 ∧ rowRank (keyRow timeLen e.1) < rowRank row.stop ∧
            time.Holds timeRank [(keyTime timeLen e.1 : Int)] := by
        constructor
        · intro hin
          refine ⟨hin.passesStart hrow.1, ?_, hin.2⟩
          exact (hin.1.2.2 hrow.2).resolve_right (by simp [hexcl])
        · rintro ⟨hpass, hlt', htime⟩
          exact ⟨⟨hvalid, hpass.above, fun _ => .inl hlt'⟩, htime⟩
      rw [hbefore, hin]
      exact and_congr_right_iff
    · rw [show mergeRanges timeLen row time = .error .overrun by
        rw [mergeRanges, hs, endKey_overrun hstop hexcl hgt]
        rfl]
      exact iff_of_false (by simp) (fun h => by omega)

end Sized

def timeType (timeLen : Nat) : FieldType := if timeLen = 4 then .unsignedLong else .unsignedLonglong

def timeValue (timeLen : Nat) (key : Bytes) : LowData :=
  ⟨[], timeType timeLen, key.drop (key.length - timeLen)⟩

theorem orderKey_time {timeLen : Nat} (hlen : timeLen = 4 ∨ timeLen = 8) {t : Bytes}
    (ht : t.length = timeLen) : orderKey (timeType timeLen) t = timeRank t := by
  have hne : t ≠ [] := by
    rintro rfl
    simp at ht
    omega
  have htake : t.take timeLen = t := take_of_length_le ht.le
  rcases hlen with rfl | rfl
  · rw [timeType, if_pos rfl, orderKey, if_pos (by decide), if_neg hne]
    simp [integerAt, leAt, htake, timeRank]
  · rw [timeType, if_neg (by decide), orderKey, if_pos (by decide), if_neg hne]
    simp [integerAt, leAt, htake, timeRank]

theorem orderKey_row {r : Bytes} (hr : ∀ b ∈ r, b < 128) : orderKey .string r = rowRank r := by
  rw [orderKey, if_neg (by decide), rowRank]
  refine map_congr_left fun b hb => ?_
  have hlt : b.toNat < 128 := UInt8.lt_iff_toNat_lt.mp (hr b hb)
  exact if_pos hlt

/-- ASCII keys: the order of `compare_ld` is that of the store. -/
theorem inRanges_iff_contains {timeLen : Nat} (hlen : timeLen = 4 ∨ timeLen = 8)
    (hstart : time.hasStart = true → time.start.length = timeLen)
    (hstop : time.hasEnd = true → time.stop.length = timeLen) {key : Bytes}
    (hkey : timeLen ≤ key.length)
    (hbytes : ∀ b ∈ row.start ++ row.stop ++ keyRow timeLen key, b < 128) :
    InRanges timeLen row time key ↔
      row.Contains ⟨[], .string, keyRow timeLen key⟩ ∧ time.Contains (timeValue timeLen key) := by
  have htime : (timeType timeLen).IsInteger := by
    rcases hlen with rfl | rfl <;> decide
  have hdrop : (key.drop (key.length - timeLen)).length = timeLen := by
    simp
    omega
  simp only [forall_mem_append] at hbytes
  rw [contains_iff (.inr (.inr rfl)) rfl, contains_iff (.inl htime) rfl]
  refine and_congr ?_ ?_
  · unfold Range.Holds Range.Above Range.Below
    rw [orderKey_row hbytes.1.1, orderKey_row hbytes.1.2, orderKey_row hbytes.2]
  · unfold Range.Holds Range.Above Range.Below
    simp only [timeValue, orderKey_time hlen hdrop]
    refine and_congr_right fun _ =>
      and_congr (forall_congr' fun h => ?_) (forall_congr' fun h => ?_)
    · rw [orderKey_time hlen (hstart h)]
      rfl
    · rw [orderKey_time hlen (hstop h)]
      rfl

theorem condToRange_invalid (hget : getRange keys.rowKey keys.timeKey conds = some (row, time))
    (hinvalid : row.invalid = true ∨ time.invalid = true) :
    condToRange keys conds = .ok { wholeRange with invalid := true } := by
  unfold condToRange
  rw [hget]
  exact if_pos (by simpa using hinvalid)

theorem condToRange_valid (hget : getRange keys.rowKey keys.timeKey conds = some (row, time))
    (hrowValid : row.invalid = false) (htimeValid : time.invalid = false)
    (hrow : row.hasStart = true ∧ row.hasEnd = true) (hlen : keys.timeKeyLen ≠ 0)
    (hstart : time.hasStart = true → time.start.length = keys.timeKeyLen)
    (hstop : time.hasEnd = true → time.stop.length = keys.timeKeyLen) :
    condToRange keys conds = mergeRanges keys.timeKeyLen row time := by
  unfold condToRange
  rw [hget]
  show (if (row.invalid || time.invalid) = true then _ else _) = _
  rw [if_neg (by simp [hrowValid, htimeValid]), if_neg (by simp [hrow]), if_neg hlen, if_neg]
  rw [Bool.or_eq_true, Bool.and_eq_true, Bool.and_eq_true, decide_eq_true_iff, decide_eq_true_iff]
  rintro (⟨hs, hne⟩ | ⟨he, hne⟩)
  · exact hne (hstart hs)
  · exact hne (hstop he)

end Query

/-- A table with the row key `r` and the time key `t` of four bytes. -/
def smallKeys : LdbKeys := ⟨[114], [116], 4⟩

def rowCond (comparator : CompareType) (value : Bytes) : FilterCondition :=
  keyCond 114 comparator [⟨[], .string, value⟩]

def timeCond (comparator : CompareType) (n : Nat) : FilterCondition :=
  keyCond 116 comparator [⟨[], .unsignedLong, leBytes 4 n⟩]

/-- Rows `a`, `b` and `c` at the times 1, 9 and 2. -/
def smallDb : LevelDb 4 :=
  ((OrderedStore.empty.put (97 :: leBytes 4 1) []).put (98 :: leBytes 4 9) []).put
    (99 :: leBytes 4 2) []

end Mile.Ldb
