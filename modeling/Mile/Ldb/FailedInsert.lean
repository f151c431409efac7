/-
  Mile.Ldb.FailedInsert
  ─────────────────────
  **INSERTS THAT FAIL** (`LdbTableImpl::CumulativeInsert`).

  The levels of a row are put one after the other, and the first `Get` or `Put`
  that fails ends the call with what was put before it.
-/
import Mile.Ldb.CumulativeExact

namespace Mile.Ldb

open Lib Common Execute List

/-- Whether the `Get` and the `Put` of each level return without an error. -/
abbrev LevelRets := Nat → Bool × Bool

section Insert

variable (funcs : AggrFunc.OtherFuncs) {timeLen : Nat}

/-- The loop over the levels, with whether it gets to its end. -/
def tryLevels (rets : LevelRets) (row : Bytes) (time : Nat) (new : List AggregateDesc) :
    Nat → List Nat → CumulativeDb timeLen → CumulativeDb timeLen × Bool
  | _, [], st => (st, true)
  | level, step :: steps, st =>
    if (rets level).1 = false then (st, false)
    else
      match insertLevel funcs row time new level step st with
      | none => (st, false)
      | some st' =>
        if (rets level).2 = false then (st, false)
        else tryLevels rets row time new (level + 1) steps st'

/-- A call of `InsertRow`: the row, whether its binlog record is written (or there is no
writer), and what leveldb returns. -/
structure InsertCall where
  rdata : RowData
  recorded : Bool
  rets : LevelRets

/-- `LdbTableImpl::InsertRow` on a table with a cumulative index: the stores afterwards, and
whether it returns 0. -/
def insertRow (table : CumulativeTable) (st : CumulativeDb table.keys.timeKeyLen)
    (call : InsertCall) : CumulativeDb table.keys.timeKeyLen × Bool :=
  match findRowKey table.keys call.rdata with
  | some (row, some time) =>
    if call.recorded = false then (st, false)
    else
      match table.descs.mapM (rowValue funcs call.rdata) with
      | some new => tryLevels funcs call.rets row.data (leNat time.data) new 0 table.steps st
      | none => (st, false)
  | _ => (st, false)

/-- The stores after some calls, failed ones too. -/
def insertCalls (table : CumulativeTable) (st : CumulativeDb table.keys.timeKeyLen)
    (calls : List InsertCall) : CumulativeDb table.keys.timeKeyLen :=
  calls.foldl (fun st call => (insertRow funcs table st call).1) st

/-- The call comes to the second level: the row is taken and recorded, and its bucket of the
first level can be read, merged and put. -/
def PutsFirst (table : CumulativeTable) (st : CumulativeDb table.keys.timeKeyLen)
    (call : InsertCall) : Prop :=
  ∃ row time new step next more st₁, table.steps = step :: next :: more ∧
    findRowKey table.keys call.rdata = some (row, some time) ∧ call.recorded = true ∧
    table.descs.mapM (rowValue funcs call.rdata) = some new ∧ call.rets 0 = (true, true) ∧
    insertLevel funcs row.data (leNat time.data) new 0 step st = some st₁

variable {funcs} {row : Bytes} {time : Nat} {new : List AggregateDesc} {rets : LevelRets}

/-- A failure at the first level changes nothing. -/
theorem tryLevels_failed {steps : List Nat} {st : CumulativeDb timeLen}
    (hfirst : ¬∃ step next more st₁, steps = step :: next :: more ∧ rets 0 = (true, true) ∧
      insertLevel funcs row time new 0 step st = some st₁)
    (h : (tryLevels funcs rets row time new 0 steps st).2 = false) :
    (tryLevels funcs rets row time new 0 steps st).1 = st := by
  cases steps with
  | nil => rfl
  | cons step steps =>
    unfold tryLevels at h ⊢
    by_cases hget : (rets 0).1 = false
    · rw [if_pos hget]
    rw [if_neg hget] at h ⊢
    cases hlevel : insertLevel funcs row time new 0 step st with
    | none => rfl
    | some st₁ =>
      rw [hlevel] at h
      simp only at h ⊢
      by_cases hput : (rets 0).2 = false
      · rw [if_pos hput]
      -- the first level was put: there is no second one that could fail
      rw [if_neg hput] at h
      cases steps with
      | nil => cases h
      | cons next more =>
        exact absurd ⟨step, next, more, st₁, rfl,
          Prod.ext (Bool.eq_true_of_not_eq_false hget) (Bool.eq_true_of_not_eq_false hput),
          hlevel⟩ hfirst

variable (level : Nat) (steps : List Nat) (st st' : CumulativeDb timeLen)

/-- **A call leaves behind** exactly the levels in front of the first one whose `Get` fails,
whose stored value is refused, or whose `Put` fails, put as without failures. -/
theorem tryLevels_puts_first : ∃ k ≤ steps.length,
    insertLevels funcs row time new level (steps.take k) st =
      some (tryLevels funcs rets row time new level steps st).1 ∧
    ((tryLevels funcs rets row time new level steps st).2 ↔ k = steps.length) ∧
    (∀ i < k, rets (level + i) = (true, true)) ∧
    ∀ step, steps[k]? = some step →
      (rets (level + k)).1 = false ∨ (rets (level + k)).2 = false ∨
        insertLevel funcs row time new (level + k) step
          (tryLevels funcs rets row time new level steps st).1 = none := by
  induction steps generalizing level st with
  | nil => exact ⟨0, le_rfl, rfl, by simp [tryLevels], by simp, by simp⟩
  | cons step steps ih =>
    rw [tryLevels]
    by_cases hget : (rets level).1 = false
    · rw [if_pos hget]
      exact ⟨0, Nat.zero_le _, rfl, by simp, by simp, fun _ _ => .inl hget⟩
    rw [if_neg hget]
    cases hlevel : insertLevel funcs row time new level step st with
    | none =>
      refine ⟨0, Nat.zero_le _, rfl, by simp, by simp, fun _ heq => .inr (.inr ?_)⟩
      obtain rfl : step = _ := by simpa using heq
      exact hlevel
    | some st₁ =>
      simp only
      by_cases hput : (rets level).2 = false
      · rw [if_pos hput]
        exact ⟨0, Nat.zero_le _, rfl, by simp, by simp, fun _ _ => .inr (.inl hput)⟩
      · rw [if_neg hput]
        -- this level is put, and the others as far as they get
        obtain ⟨k, hk, hputs, hend, hrets, hnext⟩ := ih (level + 1) st₁
        refine ⟨k + 1, Nat.succ_le_succ hk, ?_, ?_, ?_, ?_⟩
        · rw [take_succ_cons, insertLevels, hlevel]
          exact hputs
        · rw [hend, length_cons, Nat.succ_inj]
        · rw [Nat.forall_lt_succ_left]
          refine ⟨Prod.ext (Bool.eq_true_of_not_eq_false hget)
            (Bool.eq_true_of_not_eq_false hput), fun i hi => ?_⟩
          rw [Nat.add_comm i 1, ← Nat.add_assoc]
          exact hrets i hi
        · rw [Nat.add_comm k 1, ← Nat.add_assoc, Nat.add_comm 1 k]
          exact hnext

/-- The loop gets to its end exactly if every level is put. -/
theorem tryLevels_iff : tryLevels funcs rets row time new level steps st = (st', true) ↔
    insertLevels funcs row time new level steps st = some st' ∧
      ∀ i < steps.length, rets (level + i) = (true, true) := by
  induction steps generalizing level st with
  | nil => simp [tryLevels, insertLevels]
  | cons step steps ih =>
    rw [tryLevels, insertLevels, length_cons, Nat.forall_lt_succ_left]
    cases insertLevel funcs row time new level step st with
    | none => simp
    | some st₁ =>
      rcases rets level with ⟨get, put⟩
      cases get <;> cases put <;> simp [ih, Nat.add_assoc, Nat.add_comm 1]

/-- A call that fails before the second level leaves the stores as they are. -/
theorem insertRow_failed {table : CumulativeTable} {st : CumulativeDb table.keys.timeKeyLen}
    {call : InsertCall} (hfirst : ¬PutsFirst funcs table st call)
    (hfail : (insertRow funcs table st call).2 = false) :
    (insertRow funcs table st call).1 = st := by
  unfold insertRow at hfail ⊢
  split at hfail
  · next row time hkey =>
      split_ifs at hfail ⊢ with hrecorded
      · rfl
      · split at hfail
        · next new hnew =>
            refine tryLevels_failed ?_ hfail
            rintro ⟨step, next, more, st₁, hsteps, hrets, hlevel⟩
            exact hfirst ⟨row, time, new, step, next, more, st₁, hsteps, hkey,
              Bool.eq_true_of_not_eq_false hrecorded, hnew, hrets, hlevel⟩
        · rfl
  · rfl

end Insert

/-- **A failed insert that does not come to the second level** changes no later answer. -/
theorem failed_insert_unseen (funcs : AggrFunc.OtherFuncs) (table : CumulativeTable)
    (before later : List InsertCall) (call : InsertCall)
    (hfirst : ¬PutsFirst funcs table (insertCalls funcs table .empty before) call)
    (hfail : (insertRow funcs table (insertCalls funcs table .empty before) call).2 = false)
    (conds : List FilterCondition) (result : List AggregateDesc) :
    cumulativeQuery funcs table (insertCalls funcs table .empty (before ++ call :: later)) conds
        result =
      cumulativeQuery funcs table (insertCalls funcs table .empty (before ++ later)) conds
        result := by
  have hsame := insertRow_failed hfirst hfail
  unfold insertCalls at hsame ⊢
  rw [foldl_append, foldl_append, foldl_cons, hsame]

theorem failed_insert_unseen_first :
    (insertRow noFuncs tensTable (insertCalls noFuncs tensTable .empty
      [⟨rowAt 7, true, fun _ => (true, true)⟩]) ⟨rowAt 5, true, fun _ => (true, false)⟩).2 = false ∧
    cumulativeQuery noFuncs tensTable (insertCalls noFuncs tensTable .empty
        ([⟨rowAt 7, true, fun _ => (true, true)⟩] ++
          ⟨rowAt 5, true, fun _ => (true, false)⟩ :: [])) [rowCond .eq [97], timeCond .gt 0]
        [⟨.count, [42], zeroData⟩] =
      cumulativeQuery noFuncs tensTable (insertCalls noFuncs tensTable .empty
        ([⟨rowAt 7, true, fun _ => (true, true)⟩] ++ []))
        [rowCond .eq [97], timeCond .gt 0] [⟨.count, [42], zeroData⟩] := by
  refine ⟨by decide +kernel, failed_insert_unseen noFuncs tensTable _ [] _ ?_ (by decide +kernel)
    _ _⟩
  rintro ⟨_, _, _, _, _, _, _, -, -, -, -, hrets, -⟩
  cases hrets

/-- The `Put` of the second level fails: the call does not return 0, and the row
is counted. -/
theorem failed_insert_counted :
    (insertRow noFuncs tensTable .empty ⟨rowAt 5, true, fun level => (true, level = 0)⟩).2 = false ∧
    cumulativeQuery noFuncs tensTable
        (insertRow noFuncs tensTable .empty ⟨rowAt 5, true, fun level => (true, level = 0)⟩).1
        [rowCond .eq [97], timeCond .gt 0] [⟨.count, [42], zeroData⟩] =
      some [⟨.count, [42], ⟨[], .longlong, [1, 0, 0, 0, 0, 0, 0, 0]⟩⟩] ∧
    cumulativeQuery noFuncs tensTable .empty
        [rowCond .eq [97], timeCond .gt 0] [⟨.count, [42], zeroData⟩] =
      some [⟨.count, [42], zeroData⟩] := by
  refine ⟨?_, ?_, ?_⟩
  · decide +kernel
  · decide +kernel
  · decide +kernel

end Mile.Ldb
