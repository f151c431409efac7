/-
  Mile.Ldb.Range
  ──────────────
  **KEY RANGES** (`storage/ldb/LdbTableImpl.cpp`, `GetRange`, `shrink_range` and `range_position`;
  `storage/ldb/LdbIterator.h`, `range_t`).

  Each condition moves an end to its value if that lies inside, and marks the range as invalid if
  nothing is left.  The flags of the border are only ever added.
-/
import Mile.Execute.Expression

namespace Mile.Ldb

open Lib Common DocDb Execute List

/-! ## §1. Ranges. -/

/-- `struct range_t`, its `border` flag by flag. -/
structure Range where
  inclusiveStart : Bool
  inclusiveEnd : Bool
  hasStart : Bool
  hasEnd : Bool
  invalid : Bool
  start : Bytes
  stop : Bytes
  deriving DecidableEq

def wholeRange : Range := ⟨false, false, false, false, false, [], []⟩

/-- `compare_slice_ldata`: a slice is taken as a value of the other's type. -/
def compareSlice (slice : Bytes) (ldata : LowData) : Int :=
  compareLd ⟨[], ldata.type, slice⟩ ldata

/-- The second half of `range_position`. -/
def positionRight (range : Range) (ldata : LowData) : Int :=
  if range.hasEnd then
    let rc := compareSlice range.stop ldata
    if rc = -2 then -2
    else if rc = -1 then 1
    else if rc = 0 then if range.inclusiveEnd then 0 else 1
    else 0
  else 0

/-- `range_position`: a value on the start is not looked at any further. -/
def rangePosition (range : Range) (ldata : LowData) : Int :=
  if range.hasStart then
    let rc := compareSlice range.start ldata
    if rc = -2 then -2
    else if rc = 1 then -1
    else if rc = 0 then if range.inclusiveStart then 0 else -1
    else positionRight range ldata
  else positionRight range ldata

/-- `is_between_compare`. -/
def isBetweenCompare (c : CompareType) : Bool :=
  c = .betweenLg || c = .betweenLge || c = .betweenLeg || c = .betweenLege

/-- The comparators that set `range.start`. -/
def setsStart (c : CompareType) : Bool := c = .eq || c = .gt || c = .ge || isBetweenCompare c

/-- The comparators that set `range.end`. -/
def setsEnd (c : CompareType) : Bool := c = .eq || c = .lt || c = .le || isBetweenCompare c

/-- The comparators that set `INCLUSIVE_START`. -/
def setsInclusiveStart (c : CompareType) : Bool :=
  c = .eq || c = .ge || c = .betweenLege || c = .betweenLge

/-- The comparators that set `INCLUSIVE_END`. -/
def setsInclusiveEnd (c : CompareType) : Bool :=
  c = .eq || c = .le || c = .betweenLege || c = .betweenLeg

/-- The `switch` that sets `range.start`. -/
def shrinkStart (range : Range) (inclusive : Bool) (value : LowData) : Option Range :=
  let rc := rangePosition range value
  if rc = -2 then none
  else if rc = 1 then some { range with invalid := true }
  else if rc = -1 then some range
  else
    some { range with
      start := value.data
      hasStart := true
      inclusiveStart := range.inclusiveStart || inclusive }

/-- The `switch` that sets `range.end`. -/
def shrinkEnd (range : Range) (inclusive : Bool) (value : LowData) : Option Range :=
  let rc := rangePosition range value
  if rc = -2 then none
  else if rc = -1 then some { range with invalid := true }
  else if rc = 1 then some range
  else
    some { range with
      stop := value.data
      hasEnd := true
      inclusiveEnd := range.inclusiveEnd || inclusive }

def upperAt (c : CompareType) : Nat := if isBetweenCompare c then 1 else 0

/-- The half of `shrink_range` for the start; `none` when it fails, or when a
value is read that is not there. -/
def shrinkLeft (range : Range) (cond : FilterCondition) : Option Range :=
  if setsStart cond.comparator then
    (cond.values[0]?).bind (shrinkStart range (setsInclusiveStart cond.comparator))
  else some range

/-- The half of `shrink_range` for the end. -/
def shrinkRight (range : Range) (cond : FilterCondition) : Option Range :=
  if setsEnd cond.comparator then
    (cond.values[upperAt cond.comparator]?).bind
      (shrinkEnd range (setsInclusiveEnd cond.comparator))
  else some range

/-- `shrink_range`. -/
def shrinkRange (range : Range) (cond : FilterCondition) : Option Range :=
  if range.invalid then some range
  else
    (shrinkLeft range cond).bind fun range =>
      -- the start made the range invalid: `return 0`
      if range.invalid then some range
      else
        (shrinkRight range cond).bind fun range =>
          if setsStart cond.comparator || setsEnd cond.comparator then some range else none

/-- `LdbTableImpl::GetRange` from two ranges on. -/
def getRangeFrom (rowKey timeKey : Bytes) :
    List FilterCondition → Range × Range → Option (Range × Range)
  | [], ranges => some ranges
  | c :: cs, ranges =>
    match c.type with
    | .logicAnd => getRangeFrom rowKey timeKey cs ranges
    | .conditionExp =>
      if rowKey = c.fieldName then do
        let row ← shrinkRange ranges.1 c
        getRangeFrom rowKey timeKey cs (row, ranges.2)
      else if timeKey = c.fieldName then do
        let time ← shrinkRange ranges.2 c
        getRangeFrom rowKey timeKey cs (ranges.1, time)
      else none
    | _ => none

/-- `LdbTableImpl::GetRange`: the row range and the time range. -/
def getRange (rowKey timeKey : Bytes) (conds : List FilterCondition) : Option (Range × Range) :=
  getRangeFrom rowKey timeKey conds (wholeRange, wholeRange)

/-! ## §2. Bounds. -/

/-- One side of a condition: a bound, and whether it is inclusive. -/
inductive Bound (α : Type) where
  | lower (a : α) (inclusive : Bool)
  | upper (a : α) (inclusive : Bool)
  deriving DecidableEq

def Bound.Holds {α : Type} [LinearOrder α] (x : α) : Bound α → Prop
  | .lower a inclusive => a < x ∨ inclusive = true ∧ a = x
  | .upper a inclusive => x < a ∨ inclusive = true ∧ x = a

def Bound.value {α : Type} : Bound α → α
  | .lower a _ => a
  | .upper a _ => a

/-- A bound as the conditions mean it, and whether the code sets the inclusive
flag for it. -/
abbrev SetBound (α : Type) : Type := Bound α × Bool

section Bounds

variable {α : Type}

/-- The values of the lower bounds, in the order of the conditions. -/
def lowers (bs : List (SetBound α)) : List α :=
  bs.filterMap fun b => match b.1 with
    | .lower a _ => some a
    | .upper _ _ => none

/-- The values of the upper bounds, in the order of the conditions. -/
def uppers (bs : List (SetBound α)) : List α :=
  bs.filterMap fun b => match b.1 with
    | .lower _ _ => none
    | .upper a _ => some a

/-- Some bound comes behind bounds `pre` such that `P`. -/
def Behind (P : List (SetBound α) → SetBound α → Prop) (bs : List (SetBound α)) : Prop :=
  ∃ pre b post, bs = pre ++ b :: post ∧ P pre b

/-- Some lower bound is greater than all lower bounds before it, and sets
`INCLUSIVE_START`. -/
def StartFlag [LT α] (bs : List (SetBound α)) : Prop :=
  Behind (fun pre b => ∃ a i, b = (.lower a i, true) ∧ ∀ c ∈ lowers pre, c < a) bs

/-- Some upper bound is less than all upper bounds before it, and sets
`INCLUSIVE_END`. -/
def EndFlag [LT α] (bs : List (SetBound α)) : Prop :=
  Behind (fun pre b => ∃ a i, b = (.upper a i, true) ∧ ∀ c ∈ uppers pre, a < c) bs

/-- The value is a lower bound before it is an upper bound. -/
def LowerFirst (bs : List (SetBound α)) (a : α) : Prop :=
  Behind (fun pre b => (∃ i s, b = (.lower a i, s)) ∧ a ∉ uppers pre) bs

/-- An end of `[a, a)` is moved to its own place by an upper bound that sets
`INCLUSIVE_END`: `range_position` does not look at the end for a value on an
inclusive start. -/
def Reopened (bs : List (SetBound α)) (a : α) : Prop :=
  LowerFirst bs a ∧ ∃ i, (.upper a i, true) ∈ bs

/-- The flags that are left in the range admit the value `a`, if it is one of
its ends. -/
def FlagsAdmit [LT α] (bs : List (SetBound α)) (a : α) : Prop :=
  (a ∈ lowers bs → StartFlag bs) ∧ (a ∈ uppers bs → EndFlag bs ∨ Reopened bs a)

/-- No bound at `a` is exclusive. -/
def InclusiveAt (bs : List (SetBound α)) (a : α) : Prop :=
  ∀ s, (Bound.lower a false, s) ∉ bs ∧ (Bound.upper a false, s) ∉ bs

/-- The value is on the inner side of every bound, or on it. -/
def Between [LE α] (bs : List (SetBound α)) (a : α) : Prop :=
  (∀ c ∈ lowers bs, c ≤ a) ∧ ∀ c ∈ uppers bs, a ≤ c

/-- Bounds whose flags come out right: a value that no bound puts outside is
admitted by the flags exactly if no bound at it is exclusive. -/
def FlagsRight [LinearOrder α] (bs : List (SetBound α)) : Prop :=
  ∀ a, Between bs a → (FlagsAdmit bs a ↔ InclusiveAt bs a)

section Snoc

variable {bs : List (SetBound α)} {a x : α} {i s : Bool}

@[simp]
theorem lowers_lower : lowers (bs ++ [(.lower a i, s)]) = lowers bs ++ [a] := by
  simp [lowers]

@[simp]
theorem lowers_upper : lowers (bs ++ [(.upper a i, s)]) = lowers bs := by
  simp [lowers]

@[simp]
theorem uppers_lower : uppers (bs ++ [(.lower a i, s)]) = uppers bs := by
  simp [uppers]

@[simp]
theorem uppers_upper : uppers (bs ++ [(.upper a i, s)]) = uppers bs ++ [a] := by
  simp [uppers]

theorem mem_lowers : a ∈ lowers bs ↔ ∃ i s, (Bound.lower a i, s) ∈ bs := by
  unfold lowers
  rw [mem_filterMap]
  constructor
  · rintro ⟨⟨b | b, s⟩, hmem, heq⟩
    · obtain rfl := Option.some.inj heq
      exact ⟨_, s, hmem⟩
    · cases heq
  · rintro ⟨i, s, hmem⟩
    exact ⟨_, hmem, rfl⟩

theorem mem_uppers : a ∈ uppers bs ↔ ∃ i s, (Bound.upper a i, s) ∈ bs := by
  unfold uppers
  rw [mem_filterMap]
  constructor
  · rintro ⟨⟨b | b, s⟩, hmem, heq⟩
    · cases heq
    · obtain rfl := Option.some.inj heq
      exact ⟨_, s, hmem⟩
  · rintro ⟨i, s, hmem⟩
    exact ⟨_, hmem, rfl⟩

theorem behind_nil {P : List (SetBound α) → SetBound α → Prop} : ¬Behind P [] := by
  rintro ⟨pre, b, post, heq, -⟩
  simp at heq

theorem behind_snoc {P : List (SetBound α) → SetBound α → Prop} {b : SetBound α} :
    Behind P (bs ++ [b]) ↔ Behind P bs ∨ P bs b := by
  constructor
  · rintro ⟨pre, c, post, heq, hP⟩
    rcases eq_nil_or_concat post with rfl | ⟨post, last, rfl⟩
    · obtain ⟨rfl, hbc⟩ := append_inj' heq rfl
      obtain rfl : b = c := by simpa using hbc
      exact .inr hP
    · rw [concat_eq_append, ← cons_append, ← append_assoc] at heq
      exact .inl ⟨pre, c, post, (append_inj' heq rfl).1, hP⟩
  · rintro (⟨pre, c, post, rfl, hP⟩ | hP)
    · exact ⟨pre, c, post ++ [b], by simp, hP⟩
    · exact ⟨bs, b, [], rfl, hP⟩

theorem startFlag_lower [LT α] : StartFlag (bs ++ [(.lower a i, s)]) ↔
    StartFlag bs ∨ s = true ∧ ∀ c ∈ lowers bs, c < a := by
  rw [StartFlag, behind_snoc]
  refine or_congr_right ⟨?_, ?_⟩
  · rintro ⟨a', i', heq, hlt⟩
    cases heq
    exact ⟨rfl, hlt⟩
  · rintro ⟨rfl, hlt⟩
    exact ⟨a, i, rfl, hlt⟩

@[simp]
theorem startFlag_upper [LT α] : StartFlag (bs ++ [(.upper a i, s)]) ↔ StartFlag bs := by
  rw [StartFlag, behind_snoc]
  refine or_iff_left ?_
  rintro ⟨a', i', heq, -⟩
  cases heq

@[simp]
theorem endFlag_lower [LT α] : EndFlag (bs ++ [(.lower a i, s)]) ↔ EndFlag bs := by
  rw [EndFlag, behind_snoc]
  refine or_iff_left ?_
  rintro ⟨a', i', heq, -⟩
  cases heq

theorem endFlag_upper [LT α] : EndFlag (bs ++ [(.upper a i, s)]) ↔
    EndFlag bs ∨ s = true ∧ ∀ c ∈ uppers bs, a < c := by
  rw [EndFlag, behind_snoc]
  refine or_congr_right ⟨?_, ?_⟩
  · rintro ⟨a', i', heq, hlt⟩
    cases heq
    exact ⟨rfl, hlt⟩
  · rintro ⟨rfl, hlt⟩
    exact ⟨a, i, rfl, hlt⟩

@[simp]
theorem lowerFirst_upper : LowerFirst (bs ++ [(.upper a i, s)]) x ↔ LowerFirst bs x := by
  rw [LowerFirst, behind_snoc]
  refine or_iff_left ?_
  rintro ⟨⟨i', s', heq⟩, -⟩
  cases heq

theorem lowerFirst_lower : LowerFirst (bs ++ [(.lower a i, s)]) x ↔
    LowerFirst bs x ∨ a = x ∧ x ∉ uppers bs := by
  rw [LowerFirst, behind_snoc]
  refine or_congr_right (and_congr_left fun _ => ⟨?_, ?_⟩)
  · rintro ⟨i', s', heq⟩
    cases heq
    rfl
  · rintro rfl
    exact ⟨i, s, rfl⟩

theorem lowerFirst_of_mem (hlow : x ∈ lowers bs) (hup : x ∉ uppers bs) : LowerFirst bs x := by
  obtain ⟨i, s, hmem⟩ := mem_lowers.mp hlow
  obtain ⟨pre, post, rfl⟩ := append_of_mem hmem
  refine ⟨pre, _, post, rfl, ⟨i, s, rfl⟩, fun hpre => hup ?_⟩
  obtain ⟨j, s', hmem'⟩ := mem_uppers.mp hpre
  exact mem_uppers.mpr ⟨j, s', mem_append_left _ hmem'⟩

theorem LowerFirst.mem (h : LowerFirst bs x) : x ∈ lowers bs := by
  obtain ⟨pre, b, post, rfl, ⟨i, s, rfl⟩, -⟩ := h
  exact mem_lowers.mpr ⟨i, s, by simp⟩

theorem Reopened.mem (h : Reopened bs x) : x ∈ uppers bs := by
  obtain ⟨i, hmem⟩ := h.2
  exact mem_uppers.mpr ⟨i, true, hmem⟩

theorem reopened_lower (hx : x ∈ uppers bs) :
    Reopened (bs ++ [(.lower a i, s)]) x ↔ Reopened bs x := by
  simp [Reopened, lowerFirst_lower, hx]

theorem reopened_upper : Reopened (bs ++ [(.upper a i, s)]) x ↔
    Reopened bs x ∨ LowerFirst bs x ∧ x = a ∧ s = true := by
  unfold Reopened
  rw [lowerFirst_upper, ← and_or_left]
  refine and_congr_right fun _ => ?_
  simp only [mem_append, mem_singleton, Prod.mk.injEq, Bound.upper.injEq]
  constructor
  · rintro ⟨j, hmem | ⟨⟨rfl, -⟩, hs⟩⟩
    · exact .inl ⟨j, hmem⟩
    · exact .inr ⟨rfl, hs.symm⟩
  · rintro (⟨j, hmem⟩ | ⟨rfl, rfl⟩)
    · exact ⟨j, .inl hmem⟩
    · exact ⟨i, .inr ⟨⟨rfl, rfl⟩, rfl⟩⟩

end Snoc

/-! A value that no later condition lets in again. -/

variable [LinearOrder α] {bs : List (SetBound α)} {a x : α} {i s : Bool}

/-- The bounds shut `x` out for good. -/
def ShutOut (bs : List (SetBound α)) (x : α) : Prop :=
  (∃ c ∈ lowers bs, x < c) ∨ (∃ c ∈ uppers bs, c < x) ∨
    (x ∈ lowers bs ∧ ¬StartFlag bs) ∨ (x ∈ uppers bs ∧ ¬EndFlag bs ∧ ¬LowerFirst bs x)

theorem ShutOut.lower (h : ShutOut bs x) : ShutOut (bs ++ [(.lower a i, s)]) x := by
  rcases h with ⟨c, hc, hlt⟩ | ⟨c, hc, hlt⟩ | ⟨hx, hflag⟩ | ⟨hx, hflag, hfirst⟩
  · exact .inl ⟨c, by simp [hc], hlt⟩
  · exact .inr (.inl ⟨c, by simp [hc], hlt⟩)
  · by_cases hrecord : ∀ c ∈ lowers bs, c < a
    · exact .inl ⟨a, by simp, hrecord x hx⟩
    · refine .inr (.inr (.inl ⟨by simp [hx], ?_⟩))
      rw [startFlag_lower]
      rintro (hold | ⟨-, hnew⟩)
      · exact hflag hold
      · exact hrecord hnew
  · refine .inr (.inr (.inr ⟨by simpa using hx, by simpa using hflag, ?_⟩))
    rw [lowerFirst_lower]
    rintro (hold | ⟨-, hno⟩)
    · exact hfirst hold
    · exact hno hx

theorem ShutOut.upper (h : ShutOut bs x) : ShutOut (bs ++ [(.upper a i, s)]) x := by
  rcases h with ⟨c, hc, hlt⟩ | ⟨c, hc, hlt⟩ | ⟨hx, hflag⟩ | ⟨hx, hflag, hfirst⟩
  · exact .inl ⟨c, by simp [hc], hlt⟩
  · exact .inr (.inl ⟨c, by simp [hc], hlt⟩)
  · exact .inr (.inr (.inl ⟨by simpa using hx, by simpa using hflag⟩))
  · by_cases hrecord : ∀ c ∈ uppers bs, a < c
    · exact .inr (.inl ⟨a, by simp, hrecord x hx⟩)
    · refine .inr (.inr (.inr ⟨by simp [hx], ?_, by simpa using hfirst⟩))
      rw [endFlag_upper]
      rintro (hold | ⟨-, hnew⟩)
      · exact hflag hold
      · exact hrecord hnew

theorem ShutOut.append (h : ShutOut bs x) (more : List (SetBound α)) : ShutOut (bs ++ more) x := by
  induction more generalizing bs with
  | nil => rwa [append_nil]
  | cons b more ih =>
    rw [append_cons]
    obtain ⟨_ | _, _⟩ := b
    · exact ih h.lower
    · exact ih h.upper

theorem ShutOut.not_admitted (h : ShutOut bs x) : ¬(Between bs x ∧ FlagsAdmit bs x) := by
  rintro ⟨⟨hlow, hup⟩, hstart, hend⟩
  rcases h with ⟨c, hc, hlt⟩ | ⟨c, hc, hlt⟩ | ⟨hx, hflag⟩ | ⟨hx, hflag, hfirst⟩
  · exact absurd (hlow c hc) (not_le_of_gt hlt)
  · exact absurd (hup c hc) (not_le_of_gt hlt)
  · exact hflag (hstart hx)
  · rcases hend hx with hflag' | hre
    · exact hflag hflag'
    · exact hfirst hre.1

/-- All bounds hold for a value that none of them puts outside, and at which
none is exclusive. -/
theorem forall_holds_iff : (∀ b ∈ bs, b.1.Holds x) ↔ Between bs x ∧ InclusiveAt bs x := by
  constructor
  · intro hall
    refine ⟨⟨fun c hc => ?_, fun c hc => ?_⟩, fun s => ⟨fun hmem => ?_, fun hmem => ?_⟩⟩
    · obtain ⟨i, s, hmem⟩ := mem_lowers.mp hc
      rcases hall _ hmem with hlt | ⟨-, heq⟩
      · exact hlt.le
      · exact heq.le
    · obtain ⟨i, s, hmem⟩ := mem_uppers.mp hc
      rcases hall _ hmem with hlt | ⟨-, heq⟩
      · exact hlt.le
      · exact heq.le
    · simpa [Bound.Holds] using hall _ hmem
    · simpa [Bound.Holds] using hall _ hmem
  · rintro ⟨⟨hlow, hup⟩, hincl⟩ ⟨⟨a, i⟩ | ⟨a, i⟩, s⟩ hmem
    · rcases (hlow a (mem_lowers.mpr ⟨i, s, hmem⟩)).lt_or_eq with hlt | rfl
      · exact .inl hlt
      · cases i with
        | false => exact absurd hmem (hincl s).1
        | true => exact .inr ⟨rfl, rfl⟩
    · rcases (hup a (mem_uppers.mpr ⟨i, s, hmem⟩)).lt_or_eq with hlt | rfl
      · exact .inl hlt
      · cases i with
        | false => exact absurd hmem (hincl s).2
        | true => exact .inr ⟨rfl, rfl⟩

end Bounds

/-- The comparators whose lower side `CompareValue` takes as inclusive. -/
def lowerInclusive (c : CompareType) : Bool :=
  c = .eq || c = .ge || c = .betweenLeg || c = .betweenLege

/-- The comparators whose upper side `CompareValue` takes as inclusive. -/
def upperInclusive (c : CompareType) : Bool :=
  c = .eq || c = .le || c = .betweenLge || c = .betweenLege

def lowerBound (type : FieldType) (cond : FilterCondition) : Option (SetBound (List Int)) :=
  if setsStart cond.comparator then
    (cond.values[0]?).map fun v =>
      (.lower (orderKey type v.data) (lowerInclusive cond.comparator),
        setsInclusiveStart cond.comparator)
  else none

def upperBound (type : FieldType) (cond : FilterCondition) : Option (SetBound (List Int)) :=
  if setsEnd cond.comparator then
    (cond.values[upperAt cond.comparator]?).map fun v =>
      (.upper (orderKey type v.data) (upperInclusive cond.comparator),
        setsInclusiveEnd cond.comparator)
  else none

def condBounds (type : FieldType) (cond : FilterCondition) : List (SetBound (List Int)) :=
  (lowerBound type cond).toList ++ (upperBound type cond).toList

/-- The bounds of all conditions on a key, in their order. -/
def keyBounds (type : FieldType) (conds : List FilterCondition) : List (SetBound (List Int)) :=
  conds.flatMap (condBounds type)

/-! ## §3. What a range contains. -/

/-- The value lies in the range, as `compare_ld` orders them. -/
abbrev Range.Contains (range : Range) (v : LowData) : Prop :=
  range.invalid = false ∧
    (range.hasStart = true → compareLd v ⟨[], v.type, range.start⟩ = 1 ∨
      range.inclusiveStart = true ∧ compareLd v ⟨[], v.type, range.start⟩ = 0) ∧
    (range.hasEnd = true → compareLd v ⟨[], v.type, range.stop⟩ = -1 ∨
      range.inclusiveEnd = true ∧ compareLd v ⟨[], v.type, range.stop⟩ = 0)

section Keys

variable (key : Bytes → List Int) (range : Range)

def Range.Above (x : List Int) : Prop :=
  range.hasStart = true → Bound.Holds x (.lower (key range.start) range.inclusiveStart)

def Range.Below (x : List Int) : Prop :=
  range.hasEnd = true → Bound.Holds x (.upper (key range.stop) range.inclusiveEnd)

def Range.Holds (x : List Int) : Prop :=
  range.invalid = false ∧ range.Above key x ∧ range.Below key x

end Keys

variable {t : FieldType} (ht : t.IsInteger ∨ t.IsText)

section Narrow

variable {range : Range} {w : LowData} (hw : w.type = t)

include ht hw

theorem compareSlice_eq (slice : Bytes) :
    compareSlice slice w = comp (orderKey t slice) (orderKey t w.data) :=
  compareLd_eq_comp ht hw hw

theorem contains_iff : range.Contains w ↔ range.Holds (orderKey t) (orderKey t w.data) := by
  have hcmp : ∀ slice, compareLd w ⟨[], w.type, slice⟩ =
      comp (orderKey t w.data) (orderKey t slice) := fun slice => compareLd_eq_comp ht hw hw
  simp only [Range.Contains, Range.Holds, Range.Above, Range.Below, Bound.Holds, hcmp, comp_eq_one,
    comp_eq_neg_one, comp_eq_zero, @eq_comm _ (orderKey t range.start)]

/-- **The position of a value**: left of the range, right of it, or inside, where
a value on an inclusive start counts as inside. -/
theorem rangePosition_cases :
    (¬range.Above (orderKey t) (orderKey t w.data) ∧ rangePosition range w = -1) ∨
    (range.Above (orderKey t) (orderKey t w.data) ∧
      ¬range.Below (orderKey t) (orderKey t w.data) ∧
      ¬(range.hasStart = true ∧ range.inclusiveStart = true ∧
        orderKey t range.start = orderKey t w.data) ∧ rangePosition range w = 1) ∨
    (range.Above (orderKey t) (orderKey t w.data) ∧
      (range.Below (orderKey t) (orderKey t w.data) ∨ range.hasStart = true ∧
        range.inclusiveStart = true ∧ orderKey t range.start = orderKey t w.data) ∧
      rangePosition range w = 0) := by
  have hright : (¬range.Below (orderKey t) (orderKey t w.data) ∧ positionRight range w = 1) ∨
      (range.Below (orderKey t) (orderKey t w.data) ∧ positionRight range w = 0) := by
    unfold positionRight Range.Below Bound.Holds
    rw [compareSlice_eq ht hw]
    by_cases hend : range.hasEnd = true
    · rcases lt_trichotomy (orderKey t range.stop) (orderKey t w.data) with h | h | h
      · simp [hend, comp_eq_neg_one.mpr h, not_lt_of_gt h, h.ne']
      · cases range.inclusiveEnd <;> simp [hend, h, comp_eq_zero.mpr rfl]
      · simp [hend, comp_eq_one.mpr h, h]
    · simp [hend]
  unfold rangePosition Range.Above Bound.Holds
  rw [compareSlice_eq ht hw]
  by_cases hstart : range.hasStart = true
  · rcases lt_trichotomy (orderKey t range.start) (orderKey t w.data) with h | h | h
    · simp only [hstart, comp_eq_neg_one.mpr h, h, if_true, true_implies, not_true_eq_false,
        false_and, false_or, true_and, h.ne, and_false, or_false]
      simpa using hright
    · cases range.inclusiveStart <;> simp [hstart, h, comp_eq_zero.mpr rfl]
    · simp [hstart, comp_eq_one.mpr h, not_lt_of_gt h, h.ne']
  · simpa [hstart] using hright

end Narrow

/-- A valid range and the bounds that made it: its ends are the tightest values,
and its flags are those that some bound set when it moved an end. -/
structure Tracked (key : Bytes → List Int) (range : Range) (bs : List (SetBound (List Int))) :
    Prop where
  start : range.hasStart = true → IsGreatest {c | c ∈ lowers bs} (key range.start)
  noStart : range.hasStart = false → lowers bs = []
  startFlag : range.inclusiveStart = true ↔ StartFlag bs
  stop : range.hasEnd = true → IsLeast {c | c ∈ uppers bs} (key range.stop)
  noEnd : range.hasEnd = false → uppers bs = []
  endFlag : range.inclusiveEnd = true ↔ EndFlag bs ∨ Reopened bs (key range.stop)
  ordered : range.hasStart = true → range.hasEnd = true → key range.start ≤ key range.stop
  /-- Only a value that was a start before it was an end can be both when the
  end is exclusive. -/
  pinched : range.hasStart = true → range.hasEnd = true → key range.start = key range.stop →
    range.inclusiveEnd = true ∨ LowerFirst bs (key range.stop)

/-- A range and the bounds that made it. -/
def Made (key : Bytes → List Int) (range : Range) (bs : List (SetBound (List Int))) : Prop :=
  (range.invalid = true ∧ ∀ x, ShutOut bs x) ∨ (range.invalid = false ∧ Tracked key range bs)

theorem wholeRange_made (key : Bytes → List Int) : Made key wholeRange [] := by
  refine .inr ⟨rfl, ?_⟩
  constructor
  · exact nofun
  · exact fun _ => rfl
  · exact ⟨nofun, fun h => absurd h behind_nil⟩
  · exact nofun
  · exact fun _ => rfl
  · refine ⟨nofun, ?_⟩
    rintro (h | h)
    · exact absurd h behind_nil
    · exact absurd h.1 behind_nil
  · exact nofun
  · exact nofun

section Steps

variable {key : Bytes → List Int} {range : Range} {bs : List (SetBound (List Int))} {x : List Int}

/-- What a tracked start says. -/
theorem Tracked.above_iff (h : Tracked key range bs) :
    range.Above key x ↔ (∀ c ∈ lowers bs, c ≤ x) ∧ (x ∈ lowers bs → StartFlag bs) := by
  unfold Range.Above Bound.Holds
  cases hstart : range.hasStart with
  | false => simp [h.noStart hstart]
  | true =>
    obtain ⟨hmem, hub⟩ := h.start hstart
    simp only [true_implies, h.startFlag]
    constructor
    · rintro (hlt | ⟨hflag, rfl⟩)
      · exact ⟨fun c hc => (hub hc).trans hlt.le, fun hx => absurd (hub hx) (not_le_of_gt hlt)⟩
      · exact ⟨fun c hc => hub hc, fun _ => hflag⟩
    · rintro ⟨hle, hflag⟩
      rcases (hle _ hmem).lt_or_eq with hlt | rfl
      · exact .inl hlt
      · exact .inr ⟨hflag hmem, rfl⟩

/-- What a tracked end says. -/
theorem Tracked.below_iff (h : Tracked key range bs) :
    range.Below key x ↔
      (∀ c ∈ uppers bs, x ≤ c) ∧ (x ∈ uppers bs → EndFlag bs ∨ Reopened bs x) := by
  unfold Range.Below Bound.Holds
  cases hend : range.hasEnd with
  | false => simp [h.noEnd hend]
  | true =>
    obtain ⟨hmem, hlb⟩ := h.stop hend
    simp only [true_implies, h.endFlag]
    constructor
    · rintro (hlt | ⟨hflag, rfl⟩)
      · exact ⟨fun c hc => hlt.le.trans (hlb hc), fun hx => absurd (hlb hx) (not_le_of_gt hlt)⟩
      · exact ⟨fun c hc => hlb hc, fun _ => hflag⟩
    · rintro ⟨hle, hflag⟩
      rcases (hle _ hmem).lt_or_eq with hlt | rfl
      · exact .inl hlt
      · exact .inr ⟨hflag hmem, rfl⟩

/-- **What a range contains**, in terms of the bounds that made it. -/
theorem Made.holds_iff (h : Made key range bs) :
    range.Holds key x ↔ Between bs x ∧ FlagsAdmit bs x := by
  rcases h with ⟨hinvalid, hout⟩ | ⟨hvalid, h⟩
  · refine iff_of_false (fun hx => ?_) (hout x).not_admitted
    exact absurd hx.1 (by simp [hinvalid])
  · rw [Range.Holds, h.above_iff, h.below_iff, Between, FlagsAdmit]
    simp only [hvalid, true_and]
    tauto

section Move

variable {value : Bytes} {i sets : Bool} (h : Tracked key range bs)

include h

theorem Tracked.endFlag_lower :
    range.inclusiveEnd = true ↔ EndFlag (bs ++ [(.lower (key value) i, sets)]) ∨
      Reopened (bs ++ [(.lower (key value) i, sets)]) (key range.stop) := by
  rw [h.endFlag, Ldb.endFlag_lower]
  cases hend : range.hasEnd with
  | true => rw [reopened_lower (h.stop hend).1]
  | false =>
    have hno : uppers bs = [] := h.noEnd hend
    refine or_congr_right (iff_of_false (fun hre => ?_) fun hre => ?_)
    · exact absurd hre.mem (by simp [hno])
    · exact absurd hre.mem (by simp [hno])

/-- A value of the range that is a lower bound is its inclusive start. -/
theorem Tracked.on_start (habove : range.Above key (key value)) (hlow : key value ∈ lowers bs) :
    range.hasStart = true ∧ range.inclusiveStart = true ∧ key range.start = key value := by
  obtain ⟨hge, hflag⟩ := h.above_iff.mp habove
  cases hstart : range.hasStart with
  | false =>
    rw [h.noStart hstart] at hlow
    cases hlow
  | true =>
    have hub := h.start hstart
    exact ⟨rfl, h.startFlag.mpr (hflag hlow), le_antisymm (hge _ hub.1) (hub.2 hlow)⟩

/-- A lower bound left of the range changes nothing. -/
theorem Tracked.keepStart (hleft : ¬range.Above key (key value)) :
    Tracked key range (bs ++ [(.lower (key value) i, sets)]) := by
  obtain ⟨hstart, hout⟩ := Classical.not_imp.mp hleft
  obtain ⟨hmem, hub⟩ := h.start hstart
  have hle : key value ≤ key range.start := not_lt.mp fun hlt => hout (.inl hlt)
  constructor
  · refine fun _ => ⟨by simpa using .inl hmem, fun c hc => ?_⟩
    rcases (by simpa using hc : c ∈ lowers bs ∨ c = key value) with hc | rfl
    · exact hub hc
    · exact hle
  · exact fun hno => absurd hno (by simp [hstart])
  · rw [h.startFlag, startFlag_lower]
    refine (or_iff_left ?_).symm
    rintro ⟨-, hlt⟩
    exact absurd (hlt _ hmem) (not_lt_of_ge hle)
  · simpa using h.stop
  · simpa using h.noEnd
  · exact h.endFlag_lower
  · exact h.ordered
  · intro hs he heq
    rw [lowerFirst_lower]
    exact (h.pinched hs he heq).imp_right .inl

/-- A lower bound inside the range becomes its start. -/
theorem Tracked.moveStart (habove : range.Above key (key value))
    (hinside : range.Below key (key value) ∨ range.hasStart = true ∧
      range.inclusiveStart = true ∧ key range.start = key value) :
    Tracked key
      { range with
        start := value
        hasStart := true
        inclusiveStart := range.inclusiveStart || sets }
      (bs ++ [(.lower (key value) i, sets)]) := by
  have hge : ∀ c ∈ lowers bs, c ≤ key value := (h.above_iff.mp habove).1
  constructor
  · refine fun _ => ⟨by simp, fun c hc => ?_⟩
    rcases (by simpa using hc : c ∈ lowers bs ∨ c = key value) with hc | rfl
    · exact hge c hc
    · exact le_refl _
  · exact nofun
  · show (range.inclusiveStart || sets) = true ↔ _
    rw [Bool.or_eq_true, h.startFlag, startFlag_lower]
    by_cases hmem : key value ∈ lowers bs
    · have hflag := (h.above_iff.mp habove).2 hmem
      exact iff_of_true (.inl hflag) (.inl hflag)
    · have hlt : ∀ c ∈ lowers bs, c < key value := fun c hc =>
        lt_of_le_of_ne (hge c hc) (fun heq => hmem (heq ▸ hc))
      exact or_congr_right ⟨fun hs => ⟨hs, hlt⟩, And.left⟩
  · simpa using h.stop
  · simpa using h.noEnd
  · exact h.endFlag_lower
  · intro _ hend
    rcases hinside with hbelow | ⟨hstart, -, heq⟩
    · exact (h.below_iff.mp hbelow).1 _ (h.stop hend).1
    · exact heq ▸ h.ordered hstart hend
  · intro _ hend heq
    replace heq : key value = key range.stop := heq
    rcases hinside with hbelow | ⟨hstart, -, hon⟩
    · refine .inl (h.endFlag.mpr ?_)
      rw [← heq]
      exact (h.below_iff.mp hbelow).2 (heq ▸ (h.stop hend).1)
    · refine (h.pinched hstart hend (hon.trans heq)).imp_right fun hfirst => ?_
      exact lowerFirst_lower.mpr (.inl hfirst)

/-- A lower bound right of the range shuts everything out. -/
theorem Tracked.voidStart (hright : ¬range.Below key (key value))
    (habove : range.Above key (key value))
    (hoff : ¬(range.hasStart = true ∧ range.inclusiveStart = true ∧
      key range.start = key value)) (x : List Int) :
    ShutOut (bs ++ [(.lower (key value) i, sets)]) x := by
  obtain ⟨hend, hout⟩ := Classical.not_imp.mp hright
  have hle : key range.stop ≤ key value := not_lt.mp fun hlt => hout (.inl hlt)
  have hmem := (h.stop hend).1
  rcases lt_or_ge x (key value) with hlt | hge
  · exact .inl ⟨key value, by simp, hlt⟩
  rcases lt_or_ge (key range.stop) x with hlt | hge'
  · exact .inr (.inl ⟨key range.stop, by simpa using hmem, hlt⟩)
  -- only the end itself is left, and it is exclusive
  obtain rfl : x = key range.stop := le_antisymm hge' (hle.trans hge)
  have heq : key range.stop = key value := le_antisymm hle hge
  have hexcl : ¬(EndFlag bs ∨ Reopened bs (key range.stop)) := fun hflag =>
    hout (.inr ⟨h.endFlag.mpr hflag, heq.symm⟩)
  refine .inr (.inr (.inr ⟨by simpa using hmem, ?_, ?_⟩))
  · rw [Ldb.endFlag_lower]
    exact fun hflag => hexcl (.inl hflag)
  · rw [lowerFirst_lower]
    rintro (hfirst | ⟨-, hno⟩)
    · rw [heq] at hfirst
      exact hoff (h.on_start habove hfirst.mem)
    · exact hno hmem

/-- An upper bound right of the range changes nothing. -/
theorem Tracked.keepEnd (hright : ¬range.Below key (key value))
    (habove : range.Above key (key value))
    (hoff : ¬(range.hasStart = true ∧ range.inclusiveStart = true ∧
      key range.start = key value)) :
    Tracked key range (bs ++ [(.upper (key value) i, sets)]) := by
  obtain ⟨hend, hout⟩ := Classical.not_imp.mp hright
  obtain ⟨hmem, hlb⟩ := h.stop hend
  have hle : key range.stop ≤ key value := not_lt.mp fun hlt => hout (.inl hlt)
  constructor
  · simpa using h.start
  · simpa using h.noStart
  · rw [startFlag_upper]
    exact h.startFlag
  · refine fun _ => ⟨by simpa using .inl hmem, fun c hc => ?_⟩
    rcases (by simpa using hc : c ∈ uppers bs ∨ c = key value) with hc | rfl
    · exact hlb hc
    · exact hle
  · exact fun hno => absurd hno (by simp [hend])
  · rw [h.endFlag, endFlag_upper, reopened_upper]
    have hrecord : ¬(sets = true ∧ ∀ c ∈ uppers bs, key value < c) := fun hnew =>
      absurd (hnew.2 _ hmem) (not_lt_of_ge hle)
    have hagain : ¬(LowerFirst bs (key range.stop) ∧ key range.stop = key value ∧
        sets = true) := by
      rintro ⟨hfirst, heq, -⟩
      rw [heq] at hfirst
      exact hoff (h.on_start habove hfirst.mem)
    rw [or_iff_left hrecord, or_iff_left hagain]
  · exact h.ordered
  · intro hs he heq
    rw [lowerFirst_upper]
    exact h.pinched hs he heq

/-- An upper bound inside the range, or on its inclusive start, becomes its
end. -/
theorem Tracked.moveEnd (habove : range.Above key (key value))
    (hinside : range.Below key (key value) ∨ range.hasStart = true ∧
      range.inclusiveStart = true ∧ key range.start = key value) :
    Tracked key
      { range with
        stop := value
        hasEnd := true
        inclusiveEnd := range.inclusiveEnd || sets }
      (bs ++ [(.upper (key value) i, sets)]) := by
  obtain ⟨hge, hlowflag⟩ := h.above_iff.mp habove
  have hle : ∀ c ∈ uppers bs, key value ≤ c := by
    rcases hinside with hbelow | ⟨hstart, -, heq⟩
    · exact (h.below_iff.mp hbelow).1
    · intro c hc
      cases hend : range.hasEnd with
      | false =>
        rw [h.noEnd hend] at hc
        cases hc
      | true => exact heq ▸ (h.ordered hstart hend).trans ((h.stop hend).2 hc)
  -- an end at the same place was inclusive, or the range is `[a, a)`
  have hsame : key value ∈ uppers bs →
      (EndFlag bs ∨ Reopened bs (key value)) ∨ LowerFirst bs (key value) := by
    intro hmem
    rcases hinside with hbelow | ⟨hstart, -, heq⟩
    · exact .inl ((h.below_iff.mp hbelow).2 hmem)
    · cases hend : range.hasEnd with
      | false =>
        rw [h.noEnd hend] at hmem
        cases hmem
      | true =>
        have hstop : key range.stop = key value :=
          le_antisymm ((h.stop hend).2 hmem) (hle _ (h.stop hend).1)
        have hpin := h.pinched hstart hend (heq.trans hstop.symm)
        rw [h.endFlag, hstop] at hpin
        exact hpin
  have hflag : range.inclusiveEnd = true ↔ EndFlag bs ∨ Reopened bs (key value) := by
    rw [h.endFlag]
    cases hend : range.hasEnd with
    | false =>
      have hno : ∀ c, ¬Reopened bs c := fun c hre => by
        have := hre.mem
        rw [h.noEnd hend] at this
        cases this
      rw [or_iff_left (hno _), or_iff_left (hno _)]
    | true =>
      rcases (hle _ (h.stop hend).1).lt_or_eq with hlt | heq
      · refine or_congr_right (iff_of_false (fun hre => ?_) fun hre => ?_)
        · exact absurd (hge _ hre.1.mem) (not_le_of_gt hlt)
        · exact absurd ((h.stop hend).2 hre.mem) (not_le_of_gt hlt)
      · rw [heq]
  constructor
  · simpa using h.start
  · simpa using h.noStart
  · rw [startFlag_upper]
    exact h.startFlag
  · refine fun _ => ⟨by simp, fun c hc => ?_⟩
    rcases (by simpa using hc : c ∈ uppers bs ∨ c = key value) with hc | rfl
    · exact hle c hc
    · exact le_refl _
  · exact nofun
  · show (range.inclusiveEnd || sets) = true ↔ EndFlag _ ∨ Reopened _ (key value)
    rw [Bool.or_eq_true, hflag, endFlag_upper, reopened_upper]
    constructor
    · rintro ((hold | hold) | hsets)
      · exact .inl (.inl hold)
      · exact .inr (.inl hold)
      · by_cases hmem : key value ∈ uppers bs
        · rcases hsame hmem with (hold | hold) | hfirst
          · exact .inl (.inl hold)
          · exact .inr (.inl hold)
          · exact .inr (.inr ⟨hfirst, rfl, hsets⟩)
        · exact .inl (.inr ⟨hsets, fun c hc =>
            lt_of_le_of_ne (hle c hc) (fun heq => hmem (heq ▸ hc))⟩)
    · rintro ((hold | ⟨hsets, -⟩) | hold | ⟨-, -, hsets⟩)
      · exact .inl (.inl hold)
      · exact .inr hsets
      · exact .inl (.inr hold)
      · exact .inr hsets
  · intro hstart _
    exact hge _ (h.start hstart).1
  · intro hstart _ heq
    replace heq : key range.start = key value := heq
    show (range.inclusiveEnd || sets) = true ∨ LowerFirst _ (key value)
    rw [lowerFirst_upper, Bool.or_eq_true, hflag]
    by_cases hmem : key value ∈ uppers bs
    · exact (hsame hmem).imp_left .inl
    · exact .inr (lowerFirst_of_mem (heq ▸ (h.start hstart).1) hmem)

/-- An upper bound left of the range shuts everything out. -/
theorem Tracked.voidEnd (hleft : ¬range.Above key (key value)) (x : List Int) :
    ShutOut (bs ++ [(.upper (key value) i, sets)]) x := by
  obtain ⟨hstart, hout⟩ := Classical.not_imp.mp hleft
  have hle : key value ≤ key range.start := not_lt.mp fun hlt => hout (.inl hlt)
  have hmem := (h.start hstart).1
  rcases lt_or_ge x (key range.start) with hlt | hge
  · exact .inl ⟨key range.start, by simpa using hmem, hlt⟩
  rcases lt_or_ge (key value) x with hlt | hge'
  · exact .inr (.inl ⟨key value, by simp, hlt⟩)
  obtain rfl : x = key range.start := le_antisymm (hge'.trans hle) hge
  refine .inr (.inr (.inl ⟨by simpa using hmem, ?_⟩))
  rw [startFlag_upper]
  exact fun hflag => hout (.inr ⟨h.startFlag.mpr hflag, le_antisymm hge' hle⟩)

end Move

end Steps

section Shrink

variable {range range' : Range} {bs : List (SetBound (List Int))} {w : LowData}
  (hw : w.type = t) {i sets : Bool} (h : Tracked (orderKey t) range bs)
  (hvalid : range.invalid = false)

include ht hw h hvalid

theorem Tracked.shrinkStart (hs : shrinkStart range sets w = some range') :
    Made (orderKey t) range' (bs ++ [(.lower (orderKey t w.data) i, sets)]) := by
  unfold Ldb.shrinkStart at hs
  rcases @rangePosition_cases t ht range w hw with ⟨habove, hpos⟩ | ⟨habove, hbelow, hoff, hpos⟩ |
    ⟨habove, hinside, hpos⟩ <;> rw [hpos] at hs <;> cases hs
  · exact .inr ⟨hvalid, h.keepStart habove⟩
  · exact .inl ⟨rfl, h.voidStart hbelow habove hoff⟩
  · exact .inr ⟨hvalid, h.moveStart habove hinside⟩

theorem Tracked.shrinkEnd (hs : shrinkEnd range sets w = some range') :
    Made (orderKey t) range' (bs ++ [(.upper (orderKey t w.data) i, sets)]) := by
  unfold Ldb.shrinkEnd at hs
  rcases @rangePosition_cases t ht range w hw with ⟨habove, hpos⟩ | ⟨habove, hbelow, hoff, hpos⟩ |
    ⟨habove, hinside, hpos⟩ <;> rw [hpos] at hs <;> cases hs
  · exact .inl ⟨rfl, h.voidEnd habove⟩
  · exact .inr ⟨hvalid, h.keepEnd hbelow habove hoff⟩
  · exact .inr ⟨hvalid, h.moveEnd habove hinside⟩

end Shrink

/-! ## §4. Conditions. -/

/-- A condition with one of the nine comparators and its values. -/
abbrev Ranged (cond : FilterCondition) : Prop :=
  (setsStart cond.comparator || setsEnd cond.comparator) = true ∧
    upperAt cond.comparator < cond.values.length

theorem holds_lower_iff {x a : List Int} {inclusive : Bool} :
    Bound.Holds x (.lower a inclusive) ↔ comp x a = 1 ∨ inclusive = true ∧ comp x a = 0 := by
  rw [comp_eq_one, comp_eq_zero, @eq_comm _ x]
  exact Iff.rfl

theorem holds_upper_iff {x a : List Int} {inclusive : Bool} :
    Bound.Holds x (.upper a inclusive) ↔ comp x a = -1 ∨ inclusive = true ∧ comp x a = 0 := by
  rw [comp_eq_neg_one, comp_eq_zero]
  exact Iff.rfl

theorem compareOne_eq_one {v w : LowData} {ws : List LowData} {test : Int → Bool} :
    compareOne v test (some (w :: ws)) = some 1 ↔ test (compareLd v w) = true := by
  simp [compareOne, compareAt]

theorem compareBetween_eq_one {v w u : LowData} {ws : List LowData} {low high : Int → Bool} :
    compareBetween v low high (some (w :: u :: ws)) = some 1 ↔
      low (compareLd v w) = true ∧ high (compareLd v u) = true := by
  simp only [compareBetween, compareAt, getElem?_cons_zero, getElem?_cons_succ,
    Option.map_some, Option.bind_some]
  split_ifs <;> simp_all

section Conditions

variable {cond : FilterCondition} (hvalues : ∀ w ∈ cond.values, w.type = t)

include ht hvalues

/-- A condition holds if its bounds do. -/
theorem compareValue_iff_bounds {v : LowData} (hv : v.type = t) (hr : Ranged cond) :
    compareValue v cond.comparator (some cond.values) = some 1 ↔
      ∀ b ∈ condBounds t cond, b.1.Holds (orderKey t v.data) := by
  obtain ⟨type, fieldName, comparator, values⟩ := cond
  obtain ⟨hset, hlen⟩ := hr
  have hcmp : ∀ w ∈ values, compareLd v w = comp (orderKey t v.data) (orderKey t w.data) :=
    fun w hw => compareLd_eq_comp ht hv (hvalues w hw)
  rcases values with _ | ⟨w, ws⟩
  · cases comparator <;> cases hlen
  have hw := hcmp w mem_cons_self
  by_cases hbetween : isBetweenCompare comparator = true
  · rcases ws with _ | ⟨u, ws⟩
    · simp [upperAt, hbetween] at hlen
    have hu := hcmp u (mem_cons_of_mem _ mem_cons_self)
    cases comparator <;> cases hbetween <;>
      simp [compareValue, compareBetween_eq_one, condBounds, lowerBound, upperBound, setsStart,
        setsEnd, lowerInclusive, upperInclusive, upperAt, isBetweenCompare, holds_lower_iff,
        holds_upper_iff, ← hw, ← hu, or_comm]
  · cases comparator <;>
      first
        | exact absurd rfl hbetween
        | cases hset; done
        | simp [compareValue, compareOne_eq_one, condBounds, lowerBound, upperBound, setsStart,
            setsEnd, lowerInclusive, upperInclusive, upperAt, isBetweenCompare, holds_lower_iff,
            holds_upper_iff, ← hw] <;> omega

section Sides

variable {range range' : Range} {bs : List (SetBound (List Int))}
  (h : Tracked (orderKey t) range bs) (hvalid : range.invalid = false)

include h hvalid

theorem Tracked.shrinkLeft (hs : Ldb.shrinkLeft range cond = some range') :
    Made (orderKey t) range' (bs ++ (lowerBound t cond).toList) := by
  unfold Ldb.shrinkLeft at hs
  unfold lowerBound
  split_ifs at hs ⊢ with hset
  · obtain ⟨w, hw, hs⟩ := Option.bind_eq_some_iff.mp hs
    rw [hw]
    exact h.shrinkStart ht (hvalues w (mem_of_getElem? hw)) hvalid hs
  · cases hs
    exact .inr ⟨hvalid, by simpa using h⟩

theorem Tracked.shrinkRight (hs : Ldb.shrinkRight range cond = some range') :
    Made (orderKey t) range' (bs ++ (upperBound t cond).toList) := by
  unfold Ldb.shrinkRight at hs
  unfold upperBound
  split_ifs at hs ⊢ with hset
  · obtain ⟨w, hw, hs⟩ := Option.bind_eq_some_iff.mp hs
    rw [hw]
    exact h.shrinkEnd ht (hvalues w (mem_of_getElem? hw)) hvalid hs
  · cases hs
    exact .inr ⟨hvalid, by simpa using h⟩

end Sides

/-- One condition: its bounds are behind those that made the range. -/
theorem Made.shrinkRange {range range' : Range} {bs : List (SetBound (List Int))}
    (h : Made (orderKey t) range bs) (hs : Ldb.shrinkRange range cond = some range') :
    Made (orderKey t) range' (bs ++ condBounds t cond) := by
  unfold Ldb.shrinkRange at hs
  rcases h with ⟨hinvalid, hout⟩ | ⟨hvalid, h⟩
  · rw [if_pos hinvalid] at hs
    cases hs
    exact .inl ⟨hinvalid, fun x => (hout x).append _⟩
  rw [if_neg (by simp [hvalid])] at hs
  obtain ⟨middle, hmiddle, hs⟩ := Option.bind_eq_some_iff.mp hs
  rw [condBounds, ← append_assoc]
  rcases h.shrinkLeft ht hvalues hvalid hmiddle with ⟨hinvalid', hout⟩ | ⟨hvalid', hstart⟩
  · rw [if_pos hinvalid'] at hs
    cases hs
    exact .inl ⟨hinvalid', fun x => (hout x).append _⟩
  rw [if_neg (by simp [hvalid'])] at hs
  obtain ⟨last, hlast, hs⟩ := Option.bind_eq_some_iff.mp hs
  split_ifs at hs with hset
  cases hs
  exact hstart.shrinkRight ht hvalues hvalid' hlast

end Conditions

/-! ## §5. The conditions of a query. -/

def rowConds (rowKey : Bytes) (conds : List FilterCondition) : List FilterCondition :=
  conds.filter fun c => c.type = .conditionExp ∧ rowKey = c.fieldName

def timeConds (rowKey timeKey : Bytes) (conds : List FilterCondition) : List FilterCondition :=
  conds.filter fun c => c.type = .conditionExp ∧ rowKey ≠ c.fieldName ∧ timeKey = c.fieldName

variable {conds : List FilterCondition}

/-- The two ranges are shrunk on their own. -/
theorem getRangeFrom_split {rowKey timeKey : Bytes} :
    ∀ {row time row' time' : Range},
      getRangeFrom rowKey timeKey conds (row, time) = some (row', time') →
      (rowConds rowKey conds).foldlM shrinkRange row = some row' ∧
        (timeConds rowKey timeKey conds).foldlM shrinkRange time = some time' := by
  induction conds with
  | nil =>
    intro row time row' time' h
    cases h
    exact ⟨rfl, rfl⟩
  | cons c cs ih =>
    intro row time row' time' h
    unfold getRangeFrom at h
    unfold rowConds timeConds
    cases htype : c.type with
    | logicAnd =>
      rw [htype] at h
      simpa [htype, rowConds, timeConds] using ih h
    | conditionExp =>
      rw [htype] at h
      by_cases hrow : rowKey = c.fieldName
      · simp only [hrow, if_true] at h
        obtain ⟨middle, hmiddle, h⟩ := Option.bind_eq_some_iff.mp h
        have hrest := ih (hrow ▸ h)
        simpa [htype, hrow, hmiddle, rowConds, timeConds] using hrest
      · by_cases htime : timeKey = c.fieldName
        · simp only [hrow, htime, if_true, if_false] at h
          obtain ⟨middle, hmiddle, h⟩ := Option.bind_eq_some_iff.mp h
          have hrest := ih (htime ▸ h)
          simpa [htype, hrow, htime, hmiddle, rowConds, timeConds] using hrest
        · simp [hrow, htime] at h
    | _ =>
      rw [htype] at h
      cases h

/-- Conditions on one key, each with one of the nine comparators and its values,
which are of the key's type. -/
abbrev KeyConds (t : FieldType) (conds : List FilterCondition) : Prop :=
  ∀ c ∈ conds, Ranged c ∧ ∀ w ∈ c.values, w.type = t

/-- The run lemma of the conditions. -/
theorem made_foldlM (ht : t.IsInteger ∨ t.IsText) :
    ∀ {range range' : Range} {bs : List (SetBound (List Int))},
      KeyConds t conds → Made (orderKey t) range bs →
      conds.foldlM shrinkRange range = some range' →
      Made (orderKey t) range' (bs ++ keyBounds t conds) := by
  induction conds with
  | nil =>
    intro range range' bs _ h hs
    cases hs
    simpa [keyBounds] using h
  | cons c cs ih =>
    intro range range' bs hkey h hs
    obtain ⟨hc, hcs⟩ := forall_mem_cons.mp hkey
    rw [foldlM_cons] at hs
    obtain ⟨middle, hmiddle, hs⟩ := Option.bind_eq_some_iff.mp hs
    have hrest := ih hcs (h.shrinkRange ht hc.2 hmiddle) hs
    rwa [append_assoc] at hrest

/-- Every bound is a value of some condition. -/
theorem exists_value_of_mem (hkey : KeyConds t conds) {b : SetBound (List Int)}
    (hb : b ∈ keyBounds t conds) :
    ∃ w : LowData, w.type = t ∧ b.1.value = orderKey t w.data := by
  obtain ⟨c, hc, hmem⟩ := mem_flatMap.mp hb
  have htyped := (hkey c hc).2
  rcases mem_append.mp hmem with hmem | hmem
  · rw [Option.mem_toList, lowerBound] at hmem
    split_ifs at hmem
    obtain ⟨w, hw, rfl⟩ := Option.map_eq_some_iff.mp hmem
    exact ⟨w, htyped w (mem_of_getElem? hw), rfl⟩
  · rw [Option.mem_toList, upperBound] at hmem
    split_ifs at hmem
    obtain ⟨w, hw, rfl⟩ := Option.map_eq_some_iff.mp hmem
    exact ⟨w, htyped w (mem_of_getElem? hw), rfl⟩

section Key

variable (ht : t.IsInteger ∨ t.IsText) (hkey : KeyConds t conds)

include ht hkey

theorem compareValue_all_iff {v : LowData} (hv : v.type = t) :
    (∀ c ∈ conds, compareValue v c.comparator (some c.values) = some 1) ↔
      Between (keyBounds t conds) (orderKey t v.data) ∧
        InclusiveAt (keyBounds t conds) (orderKey t v.data) := by
  rw [← forall_holds_iff, keyBounds, forall_mem_flatMap]
  exact forall₂_congr fun c hc => compareValue_iff_bounds ht (hkey c hc).2 hv (hkey c hc).1

/-- **The range of one key means its conditions** exactly if the flags come out
right. -/
theorem contains_iff_conditions {range : Range}
    (hs : conds.foldlM shrinkRange wholeRange = some range) :
    (∀ v : LowData, v.type = t → (range.Contains v ↔
      ∀ c ∈ conds, compareValue v c.comparator (some c.values) = some 1)) ↔
      FlagsRight (keyBounds t conds) := by
  have hmade := made_foldlM ht hkey (wholeRange_made (orderKey t)) hs
  rw [nil_append] at hmade
  have hcontains : ∀ v : LowData, v.type = t → (range.Contains v ↔
      Between (keyBounds t conds) (orderKey t v.data) ∧
        FlagsAdmit (keyBounds t conds) (orderKey t v.data)) := fun v hv =>
    (contains_iff ht hv).trans hmade.holds_iff
  constructor
  · intro hall a hbetween
    by_cases hbound : ∃ b ∈ keyBounds t conds, b.1.value = a
    · -- a bound is a value, for which the range is right
      obtain ⟨b, hb, rfl⟩ := hbound
      obtain ⟨w, hw, heq⟩ := exists_value_of_mem hkey hb
      have hright := hall w hw
      rw [hcontains w hw, compareValue_all_iff ht hkey hw, ← heq] at hright
      simpa [hbetween] using hright
    · refine iff_of_true ⟨fun hmem => ?_, fun hmem => ?_⟩
        fun s => ⟨fun hmem => ?_, fun hmem => ?_⟩
      · obtain ⟨i, s, hb⟩ := mem_lowers.mp hmem
        exact absurd ⟨_, hb, rfl⟩ hbound
      · obtain ⟨i, s, hb⟩ := mem_uppers.mp hmem
        exact absurd ⟨_, hb, rfl⟩ hbound
      · exact hbound ⟨_, hmem, rfl⟩
      · exact hbound ⟨_, hmem, rfl⟩
  · intro hright v hv
    rw [hcontains v hv, compareValue_all_iff ht hkey hv]
    exact and_congr_right (hright _)

end Key

/-- **The ranges mean the conditions** of their key, for every value, exactly if
the flags come out right: for every value that no bound puts outside, the flags
that the bounds have set admit it exactly if no bound at it is exclusive. -/
theorem range_means_conditions {rowKey timeKey : Bytes} {timeType : FieldType}
    (htime : timeType.IsInteger) {conds : List FilterCondition} {row time : Range}
    (hget : getRange rowKey timeKey conds = some (row, time))
    (hrows : KeyConds .string (rowConds rowKey conds))
    (htimes : KeyConds timeType (timeConds rowKey timeKey conds)) :
    ((∀ v : LowData, v.type = .string → (row.Contains v ↔ ∀ c ∈ rowConds rowKey conds,
      compareValue v c.comparator (some c.values) = some 1)) ↔
        FlagsRight (keyBounds .string (rowConds rowKey conds))) ∧
    ((∀ v : LowData, v.type = timeType → (time.Contains v ↔ ∀ c ∈ timeConds rowKey timeKey conds,
      compareValue v c.comparator (some c.values) = some 1)) ↔
        FlagsRight (keyBounds timeType (timeConds rowKey timeKey conds))) := by
  obtain ⟨hrow, htimeRange⟩ := getRangeFrom_split hget
  exact ⟨contains_iff_conditions (.inr (.inr rfl)) hrows hrow,
    contains_iff_conditions (.inl htime) htimes htimeRange⟩

def keyCond (field : UInt8) (comparator : CompareType) (values : List LowData) : FilterCondition :=
  ⟨.conditionExp, [field], comparator, values⟩

def tinyTime (n : UInt8) : LowData := ⟨[], .tiny, [n]⟩

/-- The query `r = 'a' AND t > 5 AND t < 8`, and `t` between 3 exclusive and 10
inclusive, whose bounds move no end. -/
def keyQuery : List FilterCondition :=
  [keyCond 114 .eq [⟨[], .string, [97]⟩], keyCond 116 .gt [tinyTime 5],
    keyCond 116 .lt [tinyTime 8], keyCond 116 .betweenLge [tinyTime 3, tinyTime 10]]

theorem flagsRight_row : FlagsRight (keyBounds .string (rowConds [114] keyQuery)) := by
  intro a _
  show FlagsAdmit ([] ++ [(Bound.lower [97] true, true)] ++ [(Bound.upper [97] true, true)]) a ↔
    InclusiveAt [(Bound.lower [97] true, true), (Bound.upper [97] true, true)] a
  refine iff_of_true ⟨fun _ => ?_, fun _ => .inl ?_⟩ (by simp [InclusiveAt])
  · rw [startFlag_upper, startFlag_lower]
    exact .inr ⟨rfl, nofun⟩
  · rw [endFlag_upper]
    exact .inr ⟨rfl, nofun⟩

theorem flagsRight_time : FlagsRight (keyBounds .tiny (timeConds [114] [116] keyQuery)) := by
  have hbounds : keyBounds .tiny (timeConds [114] [116] keyQuery) =
      [] ++ [(Bound.lower [5] false, false)] ++ [(Bound.upper [8] false, false)] ++
        [(Bound.lower [3] false, true)] ++ [(Bound.upper [10] true, false)] := by
    decide
  have hstart : ¬StartFlag (keyBounds .tiny (timeConds [114] [116] keyQuery)) := by
    rw [hbounds, startFlag_upper, startFlag_lower, startFlag_upper, startFlag_lower]
    rintro ((h | ⟨h, -⟩) | ⟨-, h⟩)
    · exact behind_nil h
    · cases h
    · exact absurd (h [5] (by decide)) (by decide)
  have hend : ¬EndFlag (keyBounds .tiny (timeConds [114] [116] keyQuery)) := by
    rw [hbounds, endFlag_upper, endFlag_lower, endFlag_upper, endFlag_lower]
    rintro ((h | ⟨h, -⟩) | ⟨h, -⟩)
    · exact behind_nil h
    · cases h
    · cases h
  rintro a ⟨hlow, hup⟩
  have h5 : [5] ≤ a := hlow [5] (by decide)
  have h8 : a ≤ [8] := hup [8] (by decide)
  have hlowers : a ∈ lowers (keyBounds .tiny (timeConds [114] [116] keyQuery)) ↔ a = [5] := by
    show a ∈ [[5], [3]] ↔ _
    have hne : a ≠ [3] := fun h => absurd (h ▸ h5) (by decide)
    simp [hne]
  have huppers : a ∈ uppers (keyBounds .tiny (timeConds [114] [116] keyQuery)) ↔ a = [8] := by
    show a ∈ [[8], [10]] ↔ _
    have hne : a ≠ [10] := fun h => absurd (h ▸ h8) (by decide)
    simp [hne]
  -- both ends are exclusive, and no other value is a bound
  have hflags : FlagsAdmit (keyBounds .tiny (timeConds [114] [116] keyQuery)) a ↔
      a ≠ [5] ∧ a ≠ [8] := by
    rw [FlagsAdmit, hlowers, huppers]
    refine and_congr ⟨fun h heq => hstart (h heq), fun h heq => absurd heq h⟩
      ⟨fun h heq => ?_, fun h heq => absurd heq h⟩
    rcases h heq with h | h
    · exact hend h
    · exact absurd ((hlowers.mp h.1.mem).symm.trans heq) (by decide)
  rw [hflags]
  constructor
  · rintro ⟨hne5, hne8⟩ s
    exact ⟨fun hmem => hne5 (hlowers.mp (mem_lowers.mpr ⟨_, _, hmem⟩)),
      fun hmem => hne8 (huppers.mp (mem_uppers.mpr ⟨_, _, hmem⟩))⟩
  · intro hincl
    refine ⟨?_, ?_⟩
    · rintro rfl
      exact (hincl false).1 (by decide)
    · rintro rfl
      exact (hincl false).2 (by decide)

theorem range_means_conditions_two_keys :
    ∃ row time, getRange [114] [116] keyQuery = some (row, time) ∧
      (∀ v : LowData, v.type = .string → (row.Contains v ↔ ∀ c ∈ rowConds [114] keyQuery,
        compareValue v c.comparator (some c.values) = some 1)) ∧
      ∀ v : LowData, v.type = .tiny → (time.Contains v ↔
        ∀ c ∈ timeConds [114] [116] keyQuery,
          compareValue v c.comparator (some c.values) = some 1) := by
  refine ⟨_, _, rfl, ?_⟩
  obtain ⟨hrow, htime⟩ := @range_means_conditions [114] [116] .tiny (by decide) _ _ _
    (show getRange [114] [116] keyQuery = some _ from rfl)
    (by decide) (by decide)
  exact ⟨hrow.mpr flagsRight_row, htime.mpr flagsRight_time⟩

/-- `t >= 3 AND t > 5` contains 5; `t` between 3 exclusive and 10 inclusive
contains 3; and `t >= 5 AND t < 5 AND t = 5` contains 5. -/
theorem exclusive_bound_after_inclusive :
    (∃ row time, getRange [114] [116] [keyCond 116 .ge [tinyTime 3], keyCond 116 .gt [tinyTime 5]] =
        some (row, time) ∧ time.Contains (tinyTime 5) ∧
      compareValue (tinyTime 5) .gt (some [tinyTime 5]) = some 0) ∧
    (∃ row time, getRange [114] [116] [keyCond 116 .betweenLge [tinyTime 3, tinyTime 10]] =
        some (row, time) ∧ time.Contains (tinyTime 3) ∧
      compareValue (tinyTime 3) .betweenLge (some [tinyTime 3, tinyTime 10]) = some 0) ∧
    ∃ row time, getRange [114] [116] [keyCond 116 .ge [tinyTime 5], keyCond 116 .lt [tinyTime 5],
        keyCond 116 .eq [tinyTime 5]] = some (row, time) ∧ time.Contains (tinyTime 5) ∧
      compareValue (tinyTime 5) .lt (some [tinyTime 5]) = some 0 :=
  ⟨⟨_, _, rfl, by decide⟩, ⟨_, _, rfl, by decide⟩, ⟨_, _, rfl, by decide⟩⟩

end Mile.Ldb
