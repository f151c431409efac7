/-
  Mile.Ldb.TableMgr
  ─────────────────
  **QUERIES BY COLUMNS** (`storage/ldb/LdbTableMgr.cpp`, `CumulativeQuery`).

  The aggregates that are asked for are sorted for `LdbTableImpl::CumulativeQuery`, and their
  values are put back by an index into the sorted array.
-/
import Mile.Ldb.CumulativeExact
import Mile.Execute.GroupRS

namespace Mile.Ldb

open Lib Common Execute List

namespace AggregateDesc

variable (funcs : AggrFunc.OtherFuncs)

/-! ## §1. Merging a list of arrays. -/

/-- The fold of `MergeFunc` over the stored values with a function and a name. -/
def foldLikes (stored : List (List AggregateDesc)) (key : FunctionType × Bytes) (v : LowData) :
    Option LowData :=
  (stored.filterMap fun arr => (arr.find? fun e => e.key = key).map value).foldlM
    (AggrFunc.mergeFunc funcs key.1) v

def Folds (stored : List (List AggregateDesc)) (d d' : AggregateDesc) : Prop :=
  d'.key = d.key ∧ foldLikes funcs stored d.key d.value = some d'.value

/-- A sorted array without repetitions. -/
abbrev IsStored (arr : List AggregateDesc) : Prop := Sorted arr ∧ (arr.map key).Nodup

instance (arr : List AggregateDesc) : Decidable (Sorted arr) :=
  inferInstanceAs (Decidable (arr.Pairwise _))

abbrev CountMaxMin (d : AggregateDesc) : Prop := d.funcType ∈ [.count, .max, .min]

variable {funcs} {data : List AggregateDesc} {stored : List (List AggregateDesc)}

theorem Merged.folds {arr : List AggregateDesc} (harr : (arr.map key).Nodup)
    {d d' d'' : AggregateDesc} (h : Merged funcs arr d d') (h' : Folds funcs stored d' d'') :
    Folds funcs (arr :: stored) d d'' := by
  obtain ⟨hkey, h⟩ := h
  obtain ⟨hkey', hfold⟩ := h'
  rw [hkey] at hfold
  refine ⟨hkey'.trans hkey, ?_⟩
  rcases h with ⟨e, he, hlike, hmerge⟩ | ⟨hnone, rfl⟩
  · have hfind : arr.find? (fun x => x.key = d.key) = some e := by
      cases hx : arr.find? (fun x => x.key = d.key) with
      | none => exact absurd hlike (by simpa using find?_eq_none.mp hx e he)
      | some x =>
        rw [inj_on_of_nodup_map harr (mem_of_find?_eq_some hx) he
          (Eq.trans (by simpa using find?_some hx) hlike.symm)]
    rw [foldLikes, filterMap_cons, hfind, Option.map_some, foldlM_cons]
    exact (congrArg (Option.bind · _) hmerge).trans hfold
  · have hfind : arr.find? (fun x => x.key = d'.key) = none :=
      find?_eq_none.mpr fun x hx => by simpa using hnone x hx
    rw [foldLikes, filterMap_cons, hfind]
    exact hfold

/-- **Merging a list of stored arrays** folds every aggregate by itself. -/
theorem foldlM_merge (hdata : Sorted data) (hfuncs : ∀ d ∈ data, d.CountMaxMin)
    (hstored : ∀ arr ∈ stored, IsStored arr) :
    ∃ data', stored.foldlM (merge funcs) data = some data' ∧
      Forall₂ (Folds funcs stored) data data' := by
  induction stored generalizing data with
  | nil => exact ⟨data, rfl, forall₂_same.mpr fun _ _ => ⟨rfl, rfl⟩⟩
  | cons arr stored ih =>
    obtain ⟨harr, hrest⟩ := forall_mem_cons.mp hstored
    obtain ⟨data₁, hmerge⟩ := @merge_some funcs data arr fun d hd => by
      have := hfuncs d hd
      simp only [mem_cons] at this ⊢
      tauto
    have hmerged := merge_merged hdata harr.1 hmerge
    have hkeys := keys_of_forall₂ hmerged fun _ _ h => h.1
    have hfuncs₁ : ∀ d ∈ data₁, d.CountMaxMin := by
      intro d' hd'
      obtain ⟨d, hd, hm⟩ := exists_of_forall₂ hmerged hd'
      have := hfuncs d hd
      rwa [CountMaxMin, (Prod.mk.inj hm.1).1]
    obtain ⟨data₂, hfold, hfolds⟩ := ih (sorted_of_keys hkeys hdata) hfuncs₁ hrest
    refine ⟨data₂, ?_, ?_⟩
    · rw [foldlM_cons, hmerge]
      exact hfold
    · exact forall₂_trans hmerged hfolds fun _ _ _ _ h h' => h.folds harr.2 h'

/-! ## §2. The position of an aggregate. -/

/-- `aggregate_desc_array_t::Find`, by the index. -/
def find (ds : List AggregateDesc) (v : AggregateDesc) : Option Nat :=
  let p := ds.findIdx fun d => ¬d.compare v < 0
  if ds[p]?.map (·.compare v) = some 0 then some p else none

/-- The search finds an entry of the key. -/
theorem find_some {ds : List AggregateDesc} (hds : Sorted ds) {v : AggregateDesc} (hv : v ∈ ds) :
    ∃ p d, find ds v = some p ∧ ds[p]? = some d ∧ d.key = v.key := by
  obtain ⟨j, hj, rfl⟩ := getElem_of_mem hv
  have hp : ds.findIdx (fun d => ¬d.compare ds[j] < 0) < ds.length :=
    findIdx_lt_length_of_exists ⟨_, hv, by simp [compare_neg_iff]⟩
  have hle : ds.findIdx (fun d => ¬d.compare ds[j] < 0) ≤ j := by
    by_contra hlt
    have := not_of_lt_findIdx (Nat.not_le.mp hlt)
    simp [compare_neg_iff] at this
  -- nothing before is less, and the array is sorted
  have hge := of_decide_eq_true (findIdx_getElem (w := hp))
  rw [compare_neg_iff, not_lt] at hge
  have heq : (ds.get ⟨_, hp⟩).compare ds[j] = 0 := by
    refine compare_eq_zero_iff.mpr (rank_eq_iff.mp (le_antisymm ?_ hge))
    rcases hle.lt_or_eq with hlt | heq
    · exact pairwise_iff_getElem.mp hds _ _ hp hj hlt
    · exact le_of_eq (by simp only [heq, get_eq_getElem])
  refine ⟨_, _, if_pos ?_, getElem?_eq_getElem hp, compare_eq_zero_iff.mp heq⟩
  rw [getElem?_eq_getElem hp]
  exact congrArg some heq

end AggregateDesc

/-! ## §3. What a query merges. -/

section Query

open AggregateDesc

variable {funcs : AggrFunc.OtherFuncs}

variable {timeLen : Nat} {range : Range} {step : Nat} {lb rb : Bytes}

/-- The loop of a level, with the arrays it merges instead of their result. -/
def loopArrays (timeLen : Nat) (range : Range) (step : Nat) (lb rb : Bytes) :
    List (Bytes × Bytes) → QueryLoop → Option (List (List AggregateDesc) × QueryLoop)
  | [], s => some ([], s)
  | (key, value) :: es, s =>
    let rc := (LdbComparator.mk timeLen false).compare key rb
    if rc > 0 then some ([], s)
    else if rc = 0 && !range.inclusiveEnd then some ([], s)
    else
      let s := if rc = 0 then { s with rrInvalid := true } else s
      let s := if s.hasValidValue then s else checkLeft timeLen range step lb key s
      if s.hasValidValue then do
        let v ← fromLowData value
        let (arrays, s) ← loopArrays timeLen range step lb rb es
          { s with rrStart := keyTime timeLen key }
        return (v :: arrays, s)
      else loopArrays timeLen range step lb rb es s

/-- The arrays that `InnerCumulativeQuery` merges, in their order: those of the
buckets of its level, then those of the level below left and right of them. -/
def innerArrays (timeLen : Nat) (steps : List Nat) (st : CumulativeDb timeLen) (row : Bytes) :
    Nat → Range → Option (List (List AggregateDesc))
  | level, range => do
    let lb := row ++ levelByte level :: range.start
    let rb := row ++ levelByte level :: range.stop
    let step ← steps[level]?
    let (arrays, s) ← loopArrays timeLen range step lb rb ((st.storeAt level).seek lb)
      ⟨false, false, false, 0, 0, []⟩
    match level with
    | 0 => some arrays
    | level + 1 =>
      if !s.hasValidValue then do return arrays ++ (← innerArrays timeLen steps st row level range)
      else if (!s.lrInvalid && leNat range.start > s.lrEnd) ||
          (!s.rrInvalid && s.rrStart > leNat range.stop) then none
      else do
        let left ←
          if s.lrInvalid then some []
          else innerArrays timeLen steps st row level (leftRange timeLen range s.lrEnd)
        let right ←
          if s.rrInvalid then some []
          else innerArrays timeLen steps st row level (rightRange timeLen range s.rrStart)
        return arrays ++ left ++ right

/-- The arrays that `CumulativeQuery` merges for the row and the time range of the
conditions. -/
def queryArrays (table : CumulativeTable) (st : CumulativeDb table.keys.timeKeyLen)
    (conds : List FilterCondition) : Option (List (List AggregateDesc)) := do
  let (row, time) ← getRange table.keys.rowKey table.keys.timeKey conds
  if !(row.hasStart && row.hasEnd) || row.start ≠ row.stop || !row.inclusiveStart ||
      !row.inclusiveEnd then none
  else if row.invalid || time.invalid then some []
  else if (time.hasStart && time.start.length ≠ table.keys.timeKeyLen) ||
      (time.hasEnd && time.stop.length ≠ table.keys.timeKeyLen) then none
  else
    innerArrays table.keys.timeKeyLen table.steps st row.start (table.steps.length - 1)
      (wholeTimeRange table.keys.timeKeyLen time)

theorem checkLeft_result (key : Bytes) (s : QueryLoop) (r : List AggregateDesc) :
    checkLeft timeLen range step lb key { s with result := r } =
      { checkLeft timeLen range step lb key s with result := r } := by
  unfold checkLeft
  dsimp only
  split_ifs <;> rfl

/-- The checks of the bounds do not look at the result: the loop merges the arrays
it reads into whatever the result is before. -/
theorem queryLoop_eq (es : List (Bytes × Bytes)) (s : QueryLoop) (r : List AggregateDesc) :
    queryLoop funcs timeLen range step lb rb es { s with result := r } =
      (loopArrays timeLen range step lb rb es s).bind fun p =>
        (p.1.foldlM (merge funcs) r).map fun r' => { p.2 with result := r' } := by
  induction es generalizing s r with
  | nil => rfl
  | cons e es ih =>
    simp only [queryLoop, loopArrays]
    generalize (LdbComparator.mk timeLen false).compare e.1 rb = rc
    by_cases hgt : rc > 0
    · simp only [if_pos hgt]
      rfl
    by_cases hex : (rc = 0 && !range.inclusiveEnd) = true
    · simp only [if_neg hgt, if_pos hex]
      rfl
    simp only [if_neg hgt, if_neg hex]
    have hright : (if rc = 0 then ({ s with result := r, rrInvalid := true } : QueryLoop)
        else { s with result := r }) =
        { (if rc = 0 then { s with rrInvalid := true } else s) with result := r } := by
      split_ifs <;> rfl
    generalize (if rc = 0 then ({ s with rrInvalid := true } : QueryLoop) else s) = s₁ at hright ⊢
    have hleft : (if s₁.hasValidValue then { s₁ with result := r }
        else checkLeft timeLen range step lb e.1 { s₁ with result := r }) =
        { (if s₁.hasValidValue then s₁ else checkLeft timeLen range step lb e.1 s₁) with
          result := r } := by
      split_ifs
      · rfl
      · exact checkLeft_result e.1 s₁ r
    simp only [hright, hleft]
    generalize (if s₁.hasValidValue = true then s₁
      else checkLeft timeLen range step lb e.1 s₁) = s₂
    by_cases hvalid : s₂.hasValidValue = true
    · simp only [if_pos hvalid]
      cases fromLowData e.2 with
      | none => rfl
      | some v =>
        have hrest := ih { s₂ with rrStart := keyTime timeLen e.1 }
        simp only [Option.bind_eq_bind, Option.bind_some, Option.bind_assoc]
        generalize loopArrays timeLen range step lb rb es
          { s₂ with rrStart := keyTime timeLen e.1 } = arrays at hrest ⊢
        cases hmerge : merge funcs r v with
        | none => cases arrays <;> simp [hmerge]
        | some r' =>
          rw [Option.bind_some]
          refine (hrest r').trans (Option.bind_congr fun p _ => ?_)
          simp [hmerge]
    · simp only [if_neg hvalid]
      exact ih s₂ r

/-- **A level merges the arrays it reads**, and those of the levels below. -/
theorem innerCumulativeQuery_eq {steps : List Nat} {st : CumulativeDb timeLen} (row : Bytes)
    (level : Nat) (range : Range) (r : List AggregateDesc) :
    innerCumulativeQuery funcs timeLen steps st row level range r =
      (innerArrays timeLen steps st row level range).bind fun stored =>
        stored.foldlM (merge funcs) r := by
  induction level generalizing range r with
  | zero =>
    unfold innerCumulativeQuery innerArrays
    simp only [Option.bind_eq_bind]
    cases steps[0]? with
    | none => rfl
    | some step =>
      simp only [Option.bind_some]
      rw [queryLoop_eq _ ⟨false, false, false, 0, 0, []⟩]
      cases loopArrays timeLen range step _ _ _ ⟨false, false, false, 0, 0, []⟩ with
      | none => rfl
      | some p =>
        simp only [Option.bind_some, Option.bind_map]
        exact Option.bind_fun_some _
  | succ level ih =>
    unfold innerCumulativeQuery innerArrays
    simp only [Option.bind_eq_bind]
    cases steps[level + 1]? with
    | none => rfl
    | some step =>
      simp only [Option.bind_some]
      rw [queryLoop_eq _ ⟨false, false, false, 0, 0, []⟩]
      cases loopArrays timeLen range step _ _ _ ⟨false, false, false, 0, 0, []⟩ with
      | none => rfl
      | some p =>
        simp only [Option.bind_some, Option.bind_map, Function.comp_def]
        by_cases hvalid : (!p.2.hasValidValue) = true
        · simp only [if_pos hvalid, ih]
          cases innerArrays timeLen steps st row level range <;> simp
        by_cases hbad : (!p.2.lrInvalid && leNat range.start > p.2.lrEnd ||
            !p.2.rrInvalid && p.2.rrStart > leNat range.stop) = true
        · simp only [if_neg hvalid, if_pos hbad]
          exact Option.bind_fun_none _
        simp only [if_neg hvalid, if_neg hbad]
        -- each side is merged by itself, or not at all
        cases p.2.lrInvalid <;> cases p.2.rrInvalid <;>
          simp only [if_true, Bool.false_eq_true, if_false, ih, pure, append_nil]
        · cases innerArrays timeLen steps st row level (leftRange timeLen range p.2.lrEnd) with
          | none => exact Option.bind_fun_none _
          | some left =>
            cases innerArrays timeLen steps st row level (rightRange timeLen range p.2.rrStart) with
            | none => simp only [Option.bind_none, Option.bind_some, Option.bind_fun_none]
            | some right => simp
        · cases innerArrays timeLen steps st row level (leftRange timeLen range p.2.lrEnd) with
          | none => exact Option.bind_fun_none _
          | some left => simp
        · cases innerArrays timeLen steps st row level (rightRange timeLen range p.2.rrStart) with
          | none => exact Option.bind_fun_none _
          | some right => simp
        · simp

/-- **A query merges the arrays that are stored for its row and its range.** -/
theorem cumulativeQuery_merges (table : CumulativeTable) (st : CumulativeDb table.keys.timeKeyLen)
    (conds : List FilterCondition) (r : List AggregateDesc) :
    cumulativeQuery funcs table st conds r =
      (queryArrays table st conds).bind fun stored => stored.foldlM (merge funcs) r := by
  unfold cumulativeQuery queryArrays
  cases getRange table.keys.rowKey table.keys.timeKey conds with
  | none => rfl
  | some ranges =>
    simp only [Option.bind_eq_bind, Option.bind_some]
    split_ifs
    · rfl
    · rfl
    · rfl
    · exact innerCumulativeQuery_eq _ _ _ _

/-- The arrays of the store are of a kind. -/
abbrev Holds (Arr : List AggregateDesc → Prop) (es : List (Bytes × Bytes)) : Prop :=
  ∀ e ∈ es, ∀ arr ∈ fromLowData e.2, Arr arr

variable {Arr : List AggregateDesc → Prop}

theorem loopArrays_holds {es : List (Bytes × Bytes)} (hes : Holds Arr es) {s : QueryLoop}
    {p : List (List AggregateDesc) × QueryLoop}
    (h : loopArrays timeLen range step lb rb es s = some p) : ∀ arr ∈ p.1, Arr arr := by
  induction es generalizing s p with
  | nil =>
    cases h
    exact forall_mem_nil _
  | cons e es ih =>
    obtain ⟨he, hrest⟩ := forall_mem_cons.mp hes
    simp only [loopArrays] at h
    generalize (LdbComparator.mk timeLen false).compare e.1 rb = rc at h
    by_cases hgt : rc > 0
    · rw [if_pos hgt] at h
      cases h
      exact forall_mem_nil _
    by_cases hex : (rc = 0 && !range.inclusiveEnd) = true
    · rw [if_neg hgt, if_pos hex] at h
      cases h
      exact forall_mem_nil _
    rw [if_neg hgt, if_neg hex] at h
    generalize (if rc = 0 then ({ s with rrInvalid := true } : QueryLoop) else s) = s₁ at h
    generalize (if s₁.hasValidValue = true then s₁
      else checkLeft timeLen range step lb e.1 s₁) = s₂ at h
    by_cases hvalid : s₂.hasValidValue = true
    · rw [if_pos hvalid] at h
      obtain ⟨v, hv, h⟩ := Option.bind_eq_some_iff.mp h
      obtain ⟨q, hq, h⟩ := Option.bind_eq_some_iff.mp h
      cases h
      exact forall_mem_cons.mpr ⟨he v hv, ih hrest hq⟩
    · rw [if_neg hvalid] at h
      exact ih hrest h

/-- The arrays of all levels come from the stores. -/
theorem innerArrays_holds {steps : List Nat} {st : CumulativeDb timeLen}
    (hst : Holds Arr (st.db.entries ++ st.cumulativeDb.entries)) {row : Bytes} {level : Nat}
    {range : Range} {stored : List (List AggregateDesc)}
    (h : innerArrays timeLen steps st row level range = some stored) :
    ∀ arr ∈ stored, Arr arr := by
  have hstore : ∀ level lb, Holds Arr ((st.storeAt level).seek lb) := by
    intro level lb e he
    have hmem := ((st.storeAt level).seek_sublist lb).subset he
    refine hst e (mem_append.mpr ?_)
    unfold CumulativeDb.storeAt at hmem
    split_ifs at hmem
    · exact .inl hmem
    · exact .inr hmem
  induction level generalizing range stored with
  | zero =>
    unfold innerArrays at h
    obtain ⟨step, -, h⟩ := Option.bind_eq_some_iff.mp h
    obtain ⟨p, hp, h⟩ := Option.bind_eq_some_iff.mp h
    cases h
    exact loopArrays_holds (hstore _ _) hp
  | succ level ih =>
    unfold innerArrays at h
    obtain ⟨step, -, h⟩ := Option.bind_eq_some_iff.mp h
    obtain ⟨p, hp, h⟩ := Option.bind_eq_some_iff.mp h
    have hloop := loopArrays_holds (hstore _ _) hp
    simp only at h
    by_cases hvalid : (!p.2.hasValidValue) = true
    · rw [if_pos hvalid] at h
      obtain ⟨rest, hrest, h⟩ := Option.bind_eq_some_iff.mp h
      cases h
      exact forall_mem_append.mpr ⟨hloop, ih hrest⟩
    rw [if_neg hvalid] at h
    by_cases hbad : (!p.2.lrInvalid && leNat range.start > p.2.lrEnd ||
        !p.2.rrInvalid && p.2.rrStart > leNat range.stop) = true
    · rw [if_pos hbad] at h
      cases h
    · rw [if_neg hbad] at h
      cases hl : p.2.lrInvalid <;> cases hr : p.2.rrInvalid <;>
        simp only [hl, hr, if_true, Bool.false_eq_true, if_false, pure, Option.bind_eq_bind,
          Option.bind_some, append_nil] at h
      · obtain ⟨left, hleft, h⟩ := Option.bind_eq_some_iff.mp h
        obtain ⟨right, hright, h⟩ := Option.bind_eq_some_iff.mp h
        cases h
        exact forall_mem_append.mpr ⟨forall_mem_append.mpr ⟨hloop, ih hleft⟩, ih hright⟩
      · obtain ⟨left, hleft, h⟩ := Option.bind_eq_some_iff.mp h
        cases h
        exact forall_mem_append.mpr ⟨hloop, ih hleft⟩
      · obtain ⟨right, hright, h⟩ := Option.bind_eq_some_iff.mp h
        cases h
        exact forall_mem_append.mpr ⟨hloop, ih hright⟩
      · cases h
        exact hloop

theorem queryArrays_holds {table : CumulativeTable} {st : CumulativeDb table.keys.timeKeyLen}
    (hst : Holds Arr (st.db.entries ++ st.cumulativeDb.entries)) {conds : List FilterCondition}
    {stored : List (List AggregateDesc)} (h : queryArrays table st conds = some stored) :
    ∀ arr ∈ stored, Arr arr := by
  unfold queryArrays at h
  obtain ⟨ranges, -, h⟩ := Option.bind_eq_some_iff.mp h
  simp only at h
  split_ifs at h
  · cases h
    exact forall_mem_nil _
  · exact innerArrays_holds hst h


/-! ## §4. The columns of a select. -/

/-- The aggregate of a select field. -/
def mgrDesc : SelectField → Option AggregateDesc
  | .value _ => none
  | .function f _ fieldName _ =>
    some ⟨f, if f = .count && fieldName = [] then [42] else fieldName, zeroData⟩

/-- `LdbTableMgr::CumulativeQuery`. -/
def mgrCumulativeQuery (funcs : AggrFunc.OtherFuncs) (table : CumulativeTable)
    (st : CumulativeDb table.keys.timeKeyLen) (sel : List SelectField)
    (conds : List FilterCondition) : Option (List LowData) := do
  let desc ← sel.mapM mgrDesc
  let sorted := desc.mergeSort fun a b => a.compare b ≤ 0
  let index ← desc.mapM (find sorted)
  let result ← cumulativeQuery funcs table st conds sorted
  index.mapM fun i => result[i]?.map value

theorem mgrDesc_value {field : SelectField} {d : AggregateDesc} (h : mgrDesc field = some d) :
    d.value = zeroData := by
  cases field with
  | value => cases h
  | function =>
    cases h
    rfl

theorem sorted_mergeSort (ds : List AggregateDesc) :
    Sorted (ds.mergeSort fun a b => a.compare b ≤ 0) := by
  have hcmp : ∀ a b : AggregateDesc, decide (a.compare b ≤ 0) = true ↔ a.rank ≤ b.rank := by
    intro a b
    rw [decide_eq_true_iff, ← not_lt, AggregateDesc.compare_eq, comp_pos_iff, not_lt]
  refine (pairwise_mergeSort ?_ ?_ ds).imp fun h => (hcmp _ _).mp h
  · exact fun a b c h h' => (hcmp a c).mpr (((hcmp a b).mp h).trans ((hcmp b c).mp h'))
  · intro a b
    rw [Bool.or_eq_true, hcmp, hcmp]
    exact le_total _ _

end Query

section Columns

open AggregateDesc

variable (funcs : AggrFunc.OtherFuncs)

end Columns

end Mile.Ldb
