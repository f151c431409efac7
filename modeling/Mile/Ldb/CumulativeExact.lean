/-
  Mile.Ldb.CumulativeExact
  ────────────────────────
  **WHAT A CUMULATIVE QUERY COUNTS.**

  A query at one level merges the buckets from the first valid one up to the last one before the
  end, and leaves the times left and right of them to the level below.
-/
import Mile.Ldb.Buckets

namespace Mile.Ldb

open Lib Common Execute List

/-! ## §1. The loop in terms of times. -/

abbrev EndOk (range : Range) (T : Nat) : Prop :=
  T < leNat range.stop ∨ range.inclusiveEnd = true ∧ T = leNat range.stop

abbrev ValidFirst (range : Range) (step T : Nat) : Prop :=
  T = leNat range.start ∧ range.inclusiveStart = true ∧ (step = 1 ∨ leNat range.start = 0) ∨
    leNat range.start + step = T ∧ range.inclusiveStart = false ∨ leNat range.start + step < T

def atEnd (range : Range) (bs : List (Nat × Bytes)) : Bool :=
  bs.any fun b => b.1 = leNat range.stop

def mergeTimes (funcs : AggrFunc.OtherFuncs) :
    List (Nat × Bytes) → List AggregateDesc → Option (List AggregateDesc)
  | [], result => some result
  | b :: bs, result => do
    let v ← AggregateDesc.fromLowData b.2
    let result ← AggregateDesc.merge funcs result v
    mergeTimes funcs bs result

def lastTime : Nat → List (Nat × Bytes) → Nat
  | start, [] => start
  | _, b :: bs => lastTime b.1 bs

def loopTimes (funcs : AggrFunc.OtherFuncs) (range : Range) (step : Nat)
    (bs : List (Nat × Bytes)) (result : List AggregateDesc) : Option QueryLoop :=
  match bs.dropWhile fun b => ¬ValidFirst range step b.1 with
  | [] => some ⟨false, false, atEnd range bs, 0, 0, result⟩
  | b :: rest => do
    let merged ← mergeTimes funcs (b :: rest) result
    return ⟨true, !decide (leNat range.start + step < b.1), atEnd range bs,
      if leNat range.start + step < b.1 then b.1 - step else 0, lastTime b.1 rest, merged⟩

section Loop

variable {funcs : AggrFunc.OtherFuncs} {timeLen : Nat} {range : Range} {step : Nat} {R : Bytes}
  {es : List (Bytes × Bytes)}

def bucketOf (timeLen : Nat) (e : Bytes × Bytes) : Nat × Bytes := (keyTime timeLen e.1, e.2)

abbrev InLoop (timeLen : Nat) (R : Bytes) (range : Range) (e : Bytes × Bytes) : Prop :=
  timeLen ≤ e.1.length ∧ keyRow timeLen e.1 = R ∧ EndOk range (keyTime timeLen e.1)

theorem compare_bound {key t : Bytes} (hkey : timeLen ≤ key.length) (hrow : keyRow timeLen key = R)
    (ht : t.length = timeLen) :
    (LdbComparator.mk timeLen false).compare key (R ++ t) =
      comp (keyTime timeLen key) (leNat t) := by
  rw [compare_eq hkey (by simp [ht]), ldbRank_append ht, ldbRank, hrow, comp_toLex, comp_self,
    if_neg (by decide)]

def QueryLoop.startAt (range : Range) (step T : Nat) (s : QueryLoop) : QueryLoop :=
  { s with
    hasValidValue := true
    lrInvalid := s.lrInvalid || !decide (leNat range.start + step < T)
    lrEnd := if leNat range.start + step < T then T - step else s.lrEnd }

/-- The loop looks for a first bucket inside the range. -/
theorem checkLeft_eq {key : Bytes} (hkey : timeLen ≤ key.length) (hrow : keyRow timeLen key = R)
    (hstart : range.start.length = timeLen) (hstep : 0 < step)
    (hsum : leNat range.start + step < 2 ^ 64) (s : QueryLoop) :
    checkLeft timeLen range step (R ++ range.start) key s =
      if ValidFirst range step (keyTime timeLen key) then s.startAt range step (keyTime timeLen key)
      else s := by
  unfold checkLeft ValidFirst QueryLoop.startAt
  simp only [compare_bound hkey hrow hstart, Nat.mod_eq_of_lt hsum]
  by_cases heq : keyTime timeLen key = leNat range.start
  · have hne : leNat range.start + step ≠ leNat range.start := by omega
    have hlt : ¬leNat range.start + step < leNat range.start := by omega
    simp only [heq, comp_self, if_true, true_and, hne, false_and, hlt, or_false]
    by_cases hstart : range.inclusiveStart = true ∧ (step = 1 ∨ leNat range.start = 0)
    · simp [hstart]
    · rw [if_neg hstart, if_neg (by simpa using hstart)]
  · have hne : comp (keyTime timeLen key) (leNat range.start) ≠ 0 := fun h =>
      heq (comp_eq_zero.mp h)
    simp only [hne, if_false, heq, false_and, false_or]
    by_cases hon : leNat range.start + step = keyTime timeLen key
    · cases range.inclusiveStart <;> simp [hon]
    · by_cases hlt : leNat range.start + step < keyTime timeLen key <;> simp [hon, hlt]

theorem queryLoop_cons {e : Bytes × Bytes} (he : InLoop timeLen R range e)
    (hstop : range.stop.length = timeLen) (lb : Bytes) (s : QueryLoop) :
    queryLoop funcs timeLen range step lb (R ++ range.stop) (e :: es) s =
      let s₁ := { s with
        rrInvalid := s.rrInvalid || decide (keyTime timeLen e.1 = leNat range.stop) }
      let s₂ := if s.hasValidValue then s₁ else checkLeft timeLen range step lb e.1 s₁
      if s₂.hasValidValue then do
        let v ← AggregateDesc.fromLowData e.2
        let result ← AggregateDesc.merge funcs s₂.result v
        queryLoop funcs timeLen range step lb (R ++ range.stop) es
          { s₂ with rrStart := keyTime timeLen e.1, result := result }
      else queryLoop funcs timeLen range step lb (R ++ range.stop) es s₂ := by
  obtain ⟨hlen, hrow, hend⟩ := he
  conv_lhs => unfold queryLoop
  rw [compare_bound hlen hrow hstop]
  rcases hend with hlt | ⟨hincl, heq⟩
  · have hne : keyTime timeLen e.1 ≠ leNat range.stop := by omega
    simp [comp_eq_neg_one.mpr hlt, hne]
  · simp [heq, comp_self, hincl]

/-- Behind the first bucket all are merged. -/
theorem queryLoop_valid (hall : ∀ e ∈ es, InLoop timeLen R range e)
    (hstop : range.stop.length = timeLen) (lb : Bytes) {s : QueryLoop}
    (hs : s.hasValidValue = true) :
    queryLoop funcs timeLen range step lb (R ++ range.stop) es s =
      (mergeTimes funcs (es.map (bucketOf timeLen)) s.result).map fun result =>
        { s with
          rrInvalid := s.rrInvalid || atEnd range (es.map (bucketOf timeLen))
          rrStart := lastTime s.rrStart (es.map (bucketOf timeLen))
          result := result } := by
  induction es generalizing s with
  | nil => simp [queryLoop, mergeTimes, atEnd, lastTime]
  | cons e es ih =>
    obtain ⟨he, hes⟩ := forall_mem_cons.mp hall
    rw [queryLoop_cons he hstop]
    simp only [hs, if_true, map_cons, mergeTimes, bucketOf]
    cases AggregateDesc.fromLowData e.2 with
    | none => rfl
    | some v =>
      cases hmerge : AggregateDesc.merge funcs s.result v with
      | none => simp [hmerge]
      | some result =>
        simp only [Option.bind_eq_bind, Option.bind_some, hmerge]
        rw [ih hes rfl]
        congr 1
        funext result'
        simp [atEnd, lastTime, Bool.or_assoc]

/-- The loop as a fold over bucket times. -/
theorem queryLoop_times (hall : ∀ e ∈ es, InLoop timeLen R range e)
    (hstart : range.start.length = timeLen) (hstop : range.stop.length = timeLen)
    (hstep : 0 < step) (hsum : leNat range.start + step < 2 ^ 64) (r : Bool)
    (result : List AggregateDesc) :
    queryLoop funcs timeLen range step (R ++ range.start) (R ++ range.stop) es
        ⟨false, false, r, 0, 0, result⟩ =
      (loopTimes funcs range step (es.map (bucketOf timeLen)) result).map fun s =>
        { s with rrInvalid := r || s.rrInvalid } := by
  induction es generalizing r with
  | nil => simp [queryLoop, loopTimes, atEnd]
  | cons e es ih =>
    obtain ⟨he, hes⟩ := forall_mem_cons.mp hall
    rw [queryLoop_cons he hstop]
    simp only [Bool.false_eq_true, if_false, checkLeft_eq he.1 he.2.1 hstart hstep hsum]
    by_cases hvalid : ValidFirst range step (keyTime timeLen e.1)
    · -- the first valid bucket: from here on all are merged
      have hfrom := @queryLoop_cons funcs timeLen range step R es e he hstop (R ++ range.start)
        (.startAt range step (keyTime timeLen e.1) ⟨false, false, r, 0, 0, result⟩)
      simp only [hvalid, if_true]
      refine hfrom.symm.trans ?_
      rw [queryLoop_valid hall hstop _ rfl, loopTimes, map_cons,
        dropWhile_cons_of_neg (by exact fun h => of_decide_eq_true h hvalid)]
      change Option.map _ (mergeTimes funcs ((e :: es).map (bucketOf timeLen)) result) =
        Option.map _ ((mergeTimes funcs ((e :: es).map (bucketOf timeLen)) result).bind _)
      cases mergeTimes funcs ((e :: es).map (bucketOf timeLen)) result <;> rfl
    · simp only [hvalid, if_false, Bool.false_eq_true]
      rw [ih hes, loopTimes, loopTimes, map_cons,
        dropWhile_cons_of_pos (by exact decide_eq_true hvalid)]
      cases (es.map (bucketOf timeLen)).dropWhile fun b => decide ¬ValidFirst range step b.1 with
      | nil => simp [atEnd, bucketOf, Bool.or_assoc]
      | cons b rest =>
        cases hmerge : mergeTimes funcs (b :: rest) result with
        | none => simp [hmerge]
        | some merged => simp [hmerge, atEnd, bucketOf, Bool.or_assoc]

/-- The loop stops behind the row and the range. -/
theorem queryLoop_takeWhile (hlen : ∀ e ∈ es, timeLen ≤ e.1.length)
    (hstart : range.start.length = timeLen) (hstop : range.stop.length = timeLen)
    (hfrom : ∀ e ∈ es, ldbRank timeLen (R ++ range.start) ≤ ldbRank timeLen e.1) (lb : Bytes)
    (s : QueryLoop) :
    queryLoop funcs timeLen range step lb (R ++ range.stop) es s =
      queryLoop funcs timeLen range step lb (R ++ range.stop)
        (es.takeWhile fun e => InLoop timeLen R range e) s := by
  induction es generalizing s with
  | nil => rfl
  | cons e es ih =>
    obtain ⟨hlenHead, hlenTail⟩ := forall_mem_cons.mp hlen
    obtain ⟨hfromHead, hfromTail⟩ := forall_mem_cons.mp hfrom
    by_cases he : InLoop timeLen R range e
    · rw [takeWhile_cons_of_pos (by simpa using he), queryLoop_cons he hstop,
        queryLoop_cons he hstop]
      simp only [ih hlenTail hfromTail]
    · rw [takeWhile_cons_of_neg (by simpa using he)]
      unfold queryLoop
      rw [ldbRank_append hstart] at hfromHead
      -- the entry has another row key, or a time behind the end
      by_cases hrow : keyRow timeLen e.1 = R
      · rw [compare_bound hlenHead hrow hstop]
        have hend : ¬EndOk range (keyTime timeLen e.1) := fun hend => he ⟨hlenHead, hrow, hend⟩
        rcases lt_trichotomy (keyTime timeLen e.1) (leNat range.stop) with hlt | heq | hgt
        · exact absurd (.inl hlt) hend
        · have hexcl : range.inclusiveEnd = false := by
            cases hincl : range.inclusiveEnd with
            | false => rfl
            | true => exact absurd (.inr ⟨hincl, heq⟩) hend
          simp [heq, comp_self, hexcl]
        · simp [comp_eq_one.mpr hgt]
      · have hlt : rowRank R < rowRank (keyRow timeLen e.1) := by
          rcases Prod.Lex.toLex_le_toLex.mp hfromHead with hlt | ⟨heq, -⟩
          · exact hlt
          · exact absurd (rowRank_injective heq).symm hrow
        have hcmp : (LdbComparator.mk timeLen false).compare e.1 (R ++ range.stop) = 1 := by
          rw [compare_eq hlenHead (by simp [hstop]), ldbRank_append hstop]
          exact comp_eq_one.mpr (toLex_lt_ldbRank.mpr (.inl hlt))
        simp [hcmp]

end Loop

variable {funcs : AggrFunc.OtherFuncs} {colType : Bytes → FieldType} {table : CumulativeTable}
  {history : List RowData} {st : CumulativeDb table.keys.timeKeyLen} {row : Bytes} {s₀ : Nat}
  {range : Range} {step level : Nat} {bs : List (Nat × Bytes)}

/-! ## §2. The buckets of a level. -/

def Occurs (keys : LdbKeys) (history : List RowData) (row : Bytes) (t : Nat) : Prop :=
  ∃ rdata ∈ history, rowTime keys rdata = some (row, t)

def levelTimes {timeLen : Nat} (db : LevelDb timeLen) (R : Bytes) (range : Range) :
    List (Nat × Bytes) :=
  ((db.seek (R ++ range.start)).takeWhile fun e => InLoop timeLen R range e).map
    (bucketOf timeLen)

/-- The list has the buckets of a step within a range, in order. -/
structure TimesOf (colType : Bytes → FieldType) (table : CumulativeTable)
    (history : List RowData) (row : Bytes) (range : Range) (step : Nat)
    (bs : List (Nat × Bytes)) : Prop where
  sorted : bs.Pairwise fun a b => a.1 < b.1
  bounds : ∀ b ∈ bs, leNat range.start ≤ b.1 ∧ EndOk range b.1
  stored : ∀ b ∈ bs, BucketSpec colType table.descs
    (rowsOf table.keys row (inBucket step b.1) history) (some b.2)
  complete : ∀ t, Occurs table.keys history row t → leNat range.start ≤ roundUp step t →
    EndOk range (roundUp step t) → ∃ b ∈ bs, b.1 = roundUp step t

theorem rowsOf_inBucket_ne_nil {t : Nat} (h : Occurs table.keys history row t) :
    rowsOf table.keys row (inBucket step (roundUp step t)) history ≠ [] := by
  obtain ⟨rdata, hmem, hrow⟩ := h
  refine ne_nil_of_mem (mem_filter.mpr ⟨hmem, ?_⟩)
  rw [ofKey_eq hrow]
  simp [inBucket]

/-- The buckets the loop sees. -/
theorem mem_seek_takeWhile {timeLen : Nat} {db : LevelDb timeLen} (htimed : db.Timed)
    (hstart : range.start.length = timeLen) {R : Bytes} {e : Bytes × Bytes} :
    e ∈ (db.seek (R ++ range.start)).takeWhile (fun e => InLoop timeLen R range e) ↔
      e ∈ db.entries ∧ keyRow timeLen e.1 = R ∧ leNat range.start ≤ keyTime timeLen e.1 ∧
        EndOk range (keyTime timeLen e.1) := by
  have hrank : ∀ e : Bytes × Bytes, keyRow timeLen e.1 = R →
      (ldbRank timeLen (R ++ range.start) ≤ ldbRank timeLen e.1 ↔
        leNat range.start ≤ keyTime timeLen e.1) := by
    intro e hrow
    rw [ldbRank_append hstart, ldbRank, hrow, Prod.Lex.toLex_le_toLex]
    simp
  rw [OrderedStore.seek_eq_filter, takeWhile_eq_filter, mem_filter, mem_filter,
    decide_eq_true_iff, decide_eq_true_iff]
  · constructor
    · rintro ⟨⟨hmem, hfrom⟩, -, hrow, hend⟩
      exact ⟨hmem, hrow, (hrank e hrow).mp hfrom, hend⟩
    · rintro ⟨hmem, hrow, hfrom, hend⟩
      exact ⟨⟨hmem, (hrank e hrow).mpr hfrom⟩, htimed e hmem, hrow, hend⟩
  · -- an entry before a bucket, from the start on, is a bucket
    refine (Pairwise.and_mem.mp (db.sorted.filter _)).imp ?_
    rintro a b ⟨ha, hb, hab⟩ hin
    obtain ⟨hamem, hafrom⟩ := mem_filter.mp ha
    obtain ⟨-, hbrow, hbend⟩ := of_decide_eq_true hin
    have hafrom := of_decide_eq_true hafrom
    rw [ldbRank_append hstart] at hafrom
    have hrow : rowRank R ≤ rowRank (keyRow timeLen a.1) := by
      rcases Prod.Lex.toLex_le_toLex.mp hafrom with hlt | ⟨heq, -⟩
      · exact hlt.le
      · exact heq.le
    rcases Prod.Lex.toLex_lt_toLex.mp hab with hlt | ⟨heq, hlt⟩
    · rw [hbrow] at hlt
      exact absurd hlt (not_lt.mpr hrow)
    · rw [hbrow] at heq
      refine decide_eq_true ⟨htimed a hamem, rowRank_injective heq, ?_⟩
      rcases hbend with hlt' | ⟨-, heq'⟩
      · exact .inl (hlt.trans hlt')
      · exact .inl (heq' ▸ hlt)

section Level

variable (hindexed : Indexed colType table history st)
  (hstart : range.start.length = table.keys.timeKeyLen)

include hindexed hstart

variable (row) in
/-- The times the loop sees at a level. -/
theorem timesOf_levelTimes (hround : ∀ rdata ∈ history, RoundsUp table rdata)
    (hstep : table.steps[level]? = some step) :
    TimesOf colType table history row range step
      (levelTimes (st.storeAt level) (row ++ [levelByte level]) range) := by
  have hspec := hindexed.levels level step hstep
  have hmem := @mem_seek_takeWhile range _ _ (hindexed.timed level) hstart
    (row ++ [levelByte level])
  refine ⟨?_, ?_, ?_, ?_⟩
  · -- of one row key, the times stand in the order of the keys
    have hsorted := (st.storeAt level).sorted.sublist
      ((st.storeAt level).seek_sublist (row ++ [levelByte level] ++ range.start))
    refine pairwise_map.mpr ((Pairwise.and_mem.mp (hsorted.sublist
      (takeWhile_sublist _))).imp ?_)
    rintro a b ⟨ha, hb, hab⟩
    obtain ⟨-, harow, -, -⟩ := hmem.mp ha
    obtain ⟨-, hbrow, -, -⟩ := hmem.mp hb
    rcases Prod.Lex.toLex_lt_toLex.mp hab with hlt | ⟨-, hlt⟩
    · rw [harow, hbrow] at hlt
      exact absurd hlt (lt_irrefl _)
    · exact hlt
  · intro b hb
    obtain ⟨e, he, rfl⟩ := mem_map.mp hb
    obtain ⟨-, -, hfrom, hend⟩ := hmem.mp he
    exact ⟨hfrom, hend⟩
  · intro b hb
    obtain ⟨e, he, rfl⟩ := mem_map.mp hb
    obtain ⟨hentry, hrow, -, -⟩ := hmem.mp he
    have htime := keyTime_lt (hindexed.timed level e hentry)
    have hget : (st.storeAt level).get (bucketKey table.keys.timeKeyLen row level
        (keyTime table.keys.timeKeyLen e.1)) = some e.2 := by
      refine (OrderedStore.get_eq_some_iff _).mpr ⟨e.1, ?_, hentry⟩
      rw [ldbRank_bucketKey htime, ldbRank, hrow]
    have hbucket := hspec row _ htime
    rw [hget] at hbucket
    exact hbucket
  · intro t ht hfrom hend
    have hT : roundUp step t < 256 ^ table.keys.timeKeyLen := by
      obtain ⟨rdata, hin, hrow⟩ := ht
      exact hround rdata hin row t hrow step (mem_of_getElem? hstep)
    have hbucket := hspec row _ hT
    cases hget : (st.storeAt level).get (bucketKey table.keys.timeKeyLen row level
        (roundUp step t)) with
    | none =>
      rw [hget] at hbucket
      exact absurd hbucket (rowsOf_inBucket_ne_nil ht)
    | some v =>
      obtain ⟨k, hk, hentry⟩ := (OrderedStore.get_eq_some_iff _).mp hget
      rw [ldbRank_bucketKey hT] at hk
      obtain ⟨hrow, htime⟩ := ldbRank_eq_toLex.mp hk
      refine ⟨bucketOf _ (k, v), mem_map_of_mem (hmem.mpr ?_), htime⟩
      refine ⟨hentry, rowRank_injective hrow, ?_, ?_⟩
      · rw [htime]; exact hfrom
      · rw [htime]; exact hend

variable (funcs row level) in
theorem innerLoop_eq (hstep : 0 < step) (hstop : range.stop.length = table.keys.timeKeyLen)
    (hsum : leNat range.start + step < 2 ^ 64) (result : List AggregateDesc) :
    queryLoop funcs table.keys.timeKeyLen range step (row ++ levelByte level :: range.start)
        (row ++ levelByte level :: range.stop)
        ((st.storeAt level).seek (row ++ levelByte level :: range.start))
        ⟨false, false, false, 0, 0, result⟩ =
      loopTimes funcs range step
        (levelTimes (st.storeAt level) (row ++ [levelByte level]) range) result := by
  have happ : ∀ t : Bytes, row ++ levelByte level :: t = row ++ [levelByte level] ++ t := by simp
  rw [happ range.start, happ range.stop, queryLoop_takeWhile _ hstart hstop,
    queryLoop_times _ hstart hstop hstep hsum]
  · unfold levelTimes
    simp
  · intro e he
    have hin := mem_takeWhile_imp he
    exact of_decide_eq_true hin
  · intro e he
    rw [OrderedStore.seek_eq_filter] at he
    exact of_decide_eq_true (mem_filter.mp he).2
  · intro e he
    exact hindexed.timed level e ((OrderedStore.seek_sublist _ _).mem he)

end Level

theorem TimesOf.occurs (h : TimesOf colType table history row range step bs) {b : Nat × Bytes}
    (hb : b ∈ bs) : ∃ t, Occurs table.keys history row t ∧ roundUp step t = b.1 := by
  obtain ⟨hne, -⟩ := h.stored b hb
  obtain ⟨rdata, hmem⟩ := exists_mem_of_ne_nil _ hne
  obtain ⟨hin, hkey⟩ := mem_filter.mp hmem
  obtain ⟨t, hrow, hbucket⟩ := ofKey_eq_true.mp hkey
  exact ⟨t, ⟨rdata, hin, hrow⟩, of_decide_eq_true hbucket⟩

/-! ## §3. Merging buckets. -/

/-- The values asked for are the aggregates of some rows. -/
structure Answers (colType : Bytes → FieldType) (table : CumulativeTable)
    (want result : List AggregateDesc) (rows : List RowData) : Prop where
  keys : result.map AggregateDesc.key = want.map AggregateDesc.key
  aggregates : ∀ d ∈ result, d.key ∈ table.descs.map AggregateDesc.key →
    Aggregates colType d rows

section Merge

variable {want result : List AggregateDesc}

theorem Answers.perm {rows rows' : List RowData} (hperm : rows.Perm rows')
    (h : Answers colType table want result rows) : Answers colType table want result rows' :=
  ⟨h.keys, fun d hd hkey => (h.aggregates d hd hkey).perm hperm⟩

theorem filter_or_perm {γ : Type} {p q : γ → Bool} {l : List γ}
    (hdisj : ∀ a ∈ l, p a = true → q a = true → False) :
    (l.filter p ++ l.filter q).Perm (l.filter fun a => p a || q a) := by
  have hsum := Multiset.filter_add_filter (p · = true) (q · = true) (l : Multiset γ)
  have hboth : Multiset.filter (fun a => p a = true ∧ q a = true) (l : Multiset γ) = 0 :=
    Multiset.filter_eq_nil.mpr fun a ha hpq => hdisj a ha hpq.1 hpq.2
  rw [hboth, add_zero] at hsum
  simpa using hsum

theorem rowsOf_or_perm {p q : Nat → Bool}
    (hdisj : ∀ t, Occurs table.keys history row t → p t = true → q t = true → False) :
    (rowsOf table.keys row p history ++ rowsOf table.keys row q history).Perm
      (rowsOf table.keys row (fun t => p t || q t) history) := by
  have hor : ofKey table.keys row (fun t => p t || q t) =
      fun rdata => ofKey table.keys row p rdata || ofKey table.keys row q rdata := by
    funext rdata
    cases hrow : rowTime table.keys rdata with
    | none => simp [ofKey, hrow]
    | some kt => rw [ofKey_eq hrow, ofKey_eq hrow, ofKey_eq hrow, Bool.and_or_distrib_left]
  unfold rowsOf
  rw [hor]
  refine filter_or_perm fun rdata hmem hp hq => ?_
  obtain ⟨t, hrow, hp⟩ := ofKey_eq_true.mp hp
  rw [ofKey_eq hrow] at hq
  exact hdisj t ⟨rdata, hmem, hrow⟩ hp (Bool.and_eq_true_iff.mp hq).2

theorem Answers.congr {p q : Nat → Bool}
    (hans : Answers colType table want result (rowsOf table.keys row p history))
    (h : ∀ t, Occurs table.keys history row t → (p t = true ↔ q t = true)) :
    Answers colType table want result (rowsOf table.keys row q history) := by
  refine Eq.mp (congrArg _ (filter_congr fun rdata hmem => ?_)) hans
  cases hrow : rowTime table.keys rdata with
  | none => simp [ofKey, hrow]
  | some kt =>
    obtain ⟨k, t⟩ := kt
    rw [ofKey_eq hrow, ofKey_eq hrow]
    by_cases hk : k = row
    · have hpq := Bool.eq_iff_iff.mpr (h t ⟨rdata, hmem, hk ▸ hrow⟩)
      rw [hpq]
    · simp [hk]

def inBuckets (step : Nat) (bs : List (Nat × Bytes)) (t : Nat) : Bool :=
  bs.any fun b => roundUp step t = b.1

/-- Merging buckets adds their rows. -/
theorem Answers.mergeTimes {all : List RowData} (hcols : IntegerColumns colType table.descs all)
    (hwant : AggregateDesc.Sorted want) (hmergeable : ∀ d ∈ want, d.Mergeable)
    (hsorted : bs.Pairwise fun a b => a.1 < b.1)
    (hstored : ∀ b ∈ bs, BucketSpec colType table.descs
      (rowsOf table.keys row (inBucket step b.1) history) (some b.2))
    {p : Nat → Bool}
    (hdisj : ∀ t, Occurs table.keys history row t → p t = true → inBuckets step bs t = false)
    (h : Answers colType table want result (rowsOf table.keys row p history)) :
    ∃ result', mergeTimes funcs bs result = some result' ∧
      Answers colType table want result'
        (rowsOf table.keys row (fun t => p t || inBuckets step bs t) history) := by
  induction bs generalizing result p with
  | nil => exact ⟨result, rfl, by simpa [inBuckets] using h⟩
  | cons b bs ih =>
    obtain ⟨hhead, htail⟩ := pairwise_cons.mp hsorted
    obtain ⟨hb, hbs⟩ := forall_mem_cons.mp hstored
    obtain ⟨-, arr, hread, harr⟩ := hb
    have hfunc : ∀ d ∈ result, d.Mergeable := by
      intro d hd
      have hkey : d.key ∈ want.map AggregateDesc.key := h.keys ▸ mem_map_of_mem hd
      obtain ⟨w, hw, hwkey⟩ := mem_map.mp hkey
      have hm := hmergeable w hw
      unfold AggregateDesc.Mergeable at hm ⊢
      rwa [(Prod.mk.inj hwkey).1] at hm
    obtain ⟨result₁, hmerge⟩ := @AggregateDesc.merge_some funcs result arr hfunc
    obtain ⟨hkeys, hagg⟩ := harr.merge_into hcols table.descs_sorted
      (sorted_of_keys h.keys hwant) h.aggregates hmerge
    -- the rows of the bucket are new
    have hanswers : Answers colType table want result₁
        (rowsOf table.keys row (fun t => p t || inBucket step b.1 t) history) := by
      refine Answers.perm (rowsOf_or_perm fun t ht hp hin => ?_) ⟨hkeys.trans h.keys, hagg⟩
      have := hdisj t ht hp
      simp only [inBuckets, any_cons, Bool.or_eq_false_iff] at this
      exact absurd hin (by simpa [inBucket] using this.1)
    have hdisj' : ∀ t, Occurs table.keys history row t →
        (p t || inBucket step b.1 t) = true → inBuckets step bs t = false := by
      intro t ht hor
      rcases Bool.or_eq_true_iff.mp hor with hp | hin
      · have := hdisj t ht hp
        simp only [inBuckets, any_cons, Bool.or_eq_false_iff] at this
        exact this.2
      · -- the other buckets have greater times
        have hT : roundUp step t = b.1 := of_decide_eq_true hin
        refine any_eq_false.mpr fun b' hb' heq => ?_
        have := hhead b' hb'
        have := of_decide_eq_true heq
        omega
    obtain ⟨result', hrest, hanswers'⟩ := ih htail hbs hdisj' hanswers
    refine ⟨result', ?_, ?_⟩
    · simp only [Ldb.mergeTimes, hread, hmerge, Option.bind_eq_bind, Option.bind_some, hrest]
    · refine hanswers'.congr fun t _ => ?_
      simp [inBuckets, inBucket, or_assoc]

end Merge

/-! ## §4. The rows that are counted. -/

section Counted

variable (table history row s₀)

/-- The bucket of an inclusive start is found, and lies inside the range. -/
def StartFound (range : Range) : Prop :=
  (s₀ = 1 ∨ leNat range.start = 0) ∧
    rowsOf table.keys row (inBucket s₀ (leNat range.start)) history ≠ []

instance (range : Range) : Decidable (StartFound table history row s₀ range) :=
  inferInstanceAs (Decidable (_ ∧ _))

abbrev CountedBucket (range : Range) (T : Nat) : Prop :=
  EndOk range T ∧
    (range.inclusiveStart = true ∧ (leNat range.start + s₀ < T ∨
        leNat range.start ≤ T ∧ StartFound table history row s₀ range) ∨
      range.inclusiveStart = false ∧ leNat range.start + s₀ ≤ T)

def counted (range : Range) (t : Nat) : Bool :=
  CountedBucket table history row s₀ range (roundUp s₀ t)

end Counted

section Split

theorem EndOk.mono {T T' : Nat} (h : EndOk range T') (hle : T ≤ T') : EndOk range T := by
  rcases h with hlt | ⟨hincl, heq⟩
  · exact .inl (by omega)
  · rcases Nat.lt_or_eq_of_le hle with hlt | rfl
    · exact .inl (by omega)
    · exact .inr ⟨hincl, heq⟩

/-- If a row is counted, some bucket starts the count. -/
theorem TimesOf.valid_of_counted (h : TimesOf colType table history row range s₀ bs) {t : Nat}
    (ht : Occurs table.keys history row t)
    (hcount : CountedBucket table history row s₀ range (roundUp s₀ t)) :
    ∃ b ∈ bs, ValidFirst range s₀ b.1 ∧ b.1 ≤ roundUp s₀ t := by
  obtain ⟨hend, hstart⟩ := hcount
  -- the bucket of the row itself, if it is valid
  have hself : leNat range.start ≤ roundUp s₀ t → ValidFirst range s₀ (roundUp s₀ t) →
      ∃ b ∈ bs, ValidFirst range s₀ b.1 ∧ b.1 ≤ roundUp s₀ t := by
    intro hle hvalid
    obtain ⟨b, hb, heq⟩ := h.complete t ht hle hend
    exact ⟨b, hb, heq ▸ hvalid, heq.le⟩
  rcases hstart with ⟨hincl, hlt | ⟨hle, hcond, hfound⟩⟩ | ⟨hexcl, hle⟩
  · exact hself (by omega) (.inr (.inr hlt))
  · -- the bucket of the start
    obtain ⟨rdata, hmem⟩ := exists_mem_of_ne_nil _ hfound
    obtain ⟨hin, hkey⟩ := mem_filter.mp hmem
    obtain ⟨u, hrow, hbucket⟩ := ofKey_eq_true.mp hkey
    have hu : roundUp s₀ u = leNat range.start := of_decide_eq_true hbucket
    obtain ⟨b, hb, heq⟩ := h.complete u ⟨rdata, hin, hrow⟩ hu.ge (hend.mono (hu ▸ hle))
    refine ⟨b, hb, .inl ⟨heq.trans hu, hincl, hcond⟩, ?_⟩
    omega
  · refine hself (by omega) ?_
    rcases Nat.lt_or_eq_of_le hle with hlt | heq
    · exact .inr (.inr hlt)
    · exact .inr (.inl ⟨heq, hexcl⟩)

theorem TimesOf.counted_of_valid (h : TimesOf colType table history row range s₀ bs)
    {b : Nat × Bytes} (hb : b ∈ bs) (hvalid : ValidFirst range s₀ b.1) {T : Nat} (hle : b.1 ≤ T)
    (hend : EndOk range T) : CountedBucket table history row s₀ range T := by
  refine ⟨hend, ?_⟩
  rcases hvalid with ⟨heq, hincl, hcond⟩ | ⟨heq, hexcl⟩ | hlt
  · refine .inl ⟨hincl, .inr ⟨by omega, hcond, ?_⟩⟩
    rw [← heq]
    exact (h.stored b hb).1
  · exact .inr ⟨hexcl, by omega⟩
  · cases hincl : range.inclusiveStart with
    | true => exact .inl ⟨rfl, .inl (by omega)⟩
    | false => exact .inr ⟨rfl, by omega⟩

structure FirstValid (range : Range) (step : Nat) (bs : List (Nat × Bytes)) (b : Nat × Bytes)
    (rest : List (Nat × Bytes)) : Prop where
  mem : b ∈ bs
  valid : ValidFirst range step b.1
  first : ∀ b' ∈ bs, ValidFirst range step b'.1 → b.1 ≤ b'.1
  sub : (b :: rest).Sublist bs
  all : ∀ b' ∈ bs, b.1 ≤ b'.1 → b' ∈ b :: rest

/-- The bucket the merge starts with. -/
theorem TimesOf.firstValid (h : TimesOf colType table history row range step bs)
    {b : Nat × Bytes} {rest : List (Nat × Bytes)}
    (hdrop : bs.dropWhile (fun b => ¬ValidFirst range step b.1) = b :: rest) :
    FirstValid range step bs b rest := by
  have hsub : (b :: rest).Sublist bs := hdrop ▸ dropWhile_sublist _
  have hvalid : ValidFirst range step b.1 := by
    have hhead := head_dropWhile_not (fun b => decide ¬ValidFirst range step b.1) (l := bs)
      (by rw [hdrop]; exact cons_ne_nil _ _)
    simp only [hdrop, head_cons] at hhead
    exact not_not.mp (of_decide_eq_false hhead)
  -- the buckets before the first valid one
  have hsplit := takeWhile_append_dropWhile
    (p := fun b => decide ¬ValidFirst range step b.1) (l := bs)
  rw [hdrop] at hsplit
  have hbefore : ∀ b' ∈ bs, b' ∈ b :: rest ∨ ¬ValidFirst range step b'.1 ∧ b'.1 < b.1 := by
    intro b' hb'
    rw [← hsplit] at hb'
    rcases mem_append.mp hb' with hb' | hb'
    · right
      have hskip := mem_takeWhile_imp hb'
      refine ⟨of_decide_eq_true hskip, ?_⟩
      have hsorted := h.sorted
      rw [← hsplit] at hsorted
      exact (pairwise_append.mp hsorted).2.2 b' hb' b mem_cons_self
    · exact .inl hb'
  have hrest := pairwise_cons.mp (h.sorted.sublist hsub)
  refine ⟨hsub.mem mem_cons_self, hvalid, ?_, hsub, ?_⟩
  · intro b' hb' hv
    rcases hbefore b' hb' with hmem | ⟨hnot, -⟩
    · rcases mem_cons.mp hmem with rfl | hmem
      · exact le_rfl
      · exact (hrest.1 b' hmem).le
    · exact absurd hv hnot
  · intro b' hb' hle
    rcases hbefore b' hb' with hmem | ⟨-, hlt⟩
    · exact hmem
    · omega

theorem TimesOf.dvd (h : TimesOf colType table history row range step bs) {b : Nat × Bytes}
    (hb : b ∈ bs) : step ∣ b.1 := by
  obtain ⟨t, -, ht⟩ := h.occurs hb
  exact ht ▸ dvd_roundUp step t

theorem lastTime_spec {b : Nat × Bytes} {rest : List (Nat × Bytes)}
    (hsorted : (b :: rest).Pairwise fun a b => a.1 < b.1) :
    (∃ b' ∈ b :: rest, b'.1 = lastTime b.1 rest) ∧ ∀ b' ∈ b :: rest, b'.1 ≤ lastTime b.1 rest := by
  induction rest generalizing b with
  | nil => simp [lastTime]
  | cons c rest ih =>
    obtain ⟨hhead, htail⟩ := pairwise_cons.mp hsorted
    obtain ⟨⟨b', hb', heq⟩, hle⟩ := ih htail
    refine ⟨⟨b', mem_cons_of_mem _ hb', heq⟩, ?_⟩
    intro x hx
    rcases mem_cons.mp hx with rfl | hx
    · exact ((hhead c mem_cons_self).le).trans (hle c mem_cons_self)
    · exact hle x hx

variable {b : Nat × Bytes} {rest : List (Nat × Bytes)} {T t : Nat}

theorem first_of_counted (hs₀ : 0 < s₀) (hstep : 1 < step) (hvalid : ValidFirst range step b.1)
    (hleft : ¬leNat range.start + step < b.1)
    (hcount : CountedBucket table history row s₀ range T) : b.1 < T + step := by
  rcases hvalid with ⟨heq, -, hcond⟩ | ⟨heq, hexcl⟩ | hlt
  · omega
  · obtain ⟨-, ⟨hincl, -⟩ | ⟨-, hle⟩⟩ := hcount
    · rw [hincl] at hexcl
      cases hexcl
    · omega
  · exact absurd hlt hleft

theorem counted_leftRange (hb : EndOk range b.1) (hsize : b.1 < 256 ^ table.keys.timeKeyLen) :
    CountedBucket table history row s₀ (leftRange table.keys.timeKeyLen range (b.1 - step)) T ↔
      CountedBucket table history row s₀ range T ∧ T ≤ b.1 - step := by
  have hstop : leNat (leBytes table.keys.timeKeyLen (b.1 - step)) = b.1 - step :=
    leNat_leBytes_of_lt (by omega)
  have hend : EndOk (leftRange table.keys.timeKeyLen range (b.1 - step)) T ↔ T ≤ b.1 - step := by
    unfold EndOk leftRange
    rw [hstop]
    simp only [true_and]
    omega
  constructor
  · rintro ⟨hle, hstart⟩
    have hle := hend.mp hle
    exact ⟨⟨hb.mono (by omega), hstart⟩, hle⟩
  · rintro ⟨⟨-, hstart⟩, hle⟩
    exact ⟨hend.mpr hle, hstart⟩

variable (h : TimesOf colType table history row range step bs)
  (hfirst : FirstValid range step bs b rest)

include h hfirst

/-- **The merged rows of a level**: those from the first valid bucket up to the
last one. -/
theorem TimesOf.inBuckets_iff (ht : Occurs table.keys history row t) :
    inBuckets step (b :: rest) t = true ↔
      b.1 ≤ roundUp step t ∧ EndOk range (roundUp step t) := by
  have hsorted := h.sorted.sublist hfirst.sub
  unfold inBuckets
  rw [any_eq_true]
  constructor
  · rintro ⟨b', hb', heq⟩
    rw [of_decide_eq_true heq]
    refine ⟨?_, (h.bounds b' (hfirst.sub.mem hb')).2⟩
    rcases mem_cons.mp hb' with rfl | hb'
    · exact le_rfl
    · exact ((pairwise_cons.mp hsorted).1 b' hb').le
  · rintro ⟨hle, hend⟩
    have hfrom := (h.bounds b hfirst.mem).1
    obtain ⟨b', hb', heq⟩ := h.complete t ht (by omega) hend
    exact ⟨b', hfirst.all b' hb' (by omega), decide_eq_true heq.symm⟩

theorem TimesOf.last_mem : ∃ b' ∈ bs, b'.1 = lastTime b.1 rest := by
  obtain ⟨⟨b', hb', hlast⟩, -⟩ := lastTime_spec (h.sorted.sublist hfirst.sub)
  exact ⟨b', hfirst.sub.mem hb', hlast⟩

theorem TimesOf.last_dvd : step ∣ lastTime b.1 rest := by
  obtain ⟨b', hb', hlast⟩ := h.last_mem hfirst
  exact hlast ▸ h.dvd hb'

theorem TimesOf.last_end : EndOk range (lastTime b.1 rest) ∧ b.1 ≤ lastTime b.1 rest := by
  obtain ⟨b', hb', hlast⟩ := h.last_mem hfirst
  have hle := (lastTime_spec (h.sorted.sublist hfirst.sub)).2
  exact ⟨hlast ▸ (h.bounds b' hb').2, hle b mem_cons_self⟩

theorem TimesOf.last_of_atEnd (hend : atEnd range bs = true) :
    leNat range.stop ≤ lastTime b.1 rest := by
  obtain ⟨b', hb', heq⟩ := any_eq_true.mp hend
  have heq : b'.1 = leNat range.stop := of_decide_eq_true heq
  have hle : b.1 ≤ b'.1 := by
    rcases (h.bounds b hfirst.mem).2 with hlt | ⟨-, hon⟩ <;> omega
  rw [← heq]
  exact (lastTime_spec (h.sorted.sublist hfirst.sub)).2 b' (hfirst.all b' hb' hle)

variable (hdvd : s₀ ∣ step) (hstep : 1 < step)

include hdvd hstep

theorem TimesOf.counted_of_first (hT : s₀ ∣ T) (hin : b.1 < T + step) (hend : EndOk range T) :
    CountedBucket table history row s₀ range T := by
  have hb : s₀ ∣ b.1 := hdvd.trans (h.dvd hfirst.mem)
  have hnext : b.1 + s₀ ≤ T + step := add_le_of_dvd hb (Nat.dvd_add hT hdvd) hin
  refine ⟨hend, ?_⟩
  rcases hfirst.valid with ⟨heq, hincl, hcond⟩ | ⟨heq, hexcl⟩ | hlt
  · -- both ends of the first bucket are the time 0
    have hzero : leNat range.start = 0 := hcond.resolve_left (by omega)
    refine .inl ⟨hincl, .inr ⟨by omega, .inr hzero, ?_⟩⟩
    obtain ⟨t, ⟨rdata, hmem, hrow⟩, ht⟩ := h.occurs hfirst.mem
    have ht0 : t = 0 := by
      have := le_roundUp (by omega : 0 < step) t
      omega
    refine ne_nil_of_mem (mem_filter.mpr ⟨hmem, ofKey_eq_true.mpr ⟨t, hrow, ?_⟩⟩)
    rw [hzero, ht0]
    exact decide_eq_true (roundUp_zero s₀)
  · exact .inr ⟨hexcl, by omega⟩
  · cases hincl : range.inclusiveStart with
    | true => exact .inl ⟨rfl, .inl (by omega)⟩
    | false => exact .inr ⟨rfl, by omega⟩

variable (hs₀ : 0 < s₀)

include hs₀

/-- What the query of the rest counts. -/
theorem TimesOf.counted_rightRange (hT : s₀ ∣ T)
    (hsize : lastTime b.1 rest < 256 ^ table.keys.timeKeyLen) :
    CountedBucket table history row s₀
        (rightRange table.keys.timeKeyLen range (lastTime b.1 rest)) T ↔
      CountedBucket table history row s₀ range T ∧ lastTime b.1 rest < T := by
  have hstart : leNat (leBytes table.keys.timeKeyLen (lastTime b.1 rest)) = lastTime b.1 rest :=
    leNat_leBytes_of_lt hsize
  have hlastdvd : s₀ ∣ lastTime b.1 rest := hdvd.trans (h.last_dvd hfirst)
  constructor
  · rintro ⟨hend, ⟨hincl, -⟩ | ⟨-, hge⟩⟩
    · cases hincl
    · have hge : leNat (leBytes table.keys.timeKeyLen (lastTime b.1 rest)) + s₀ ≤ T := hge
      rw [hstart] at hge
      have := (h.last_end hfirst).2
      exact ⟨h.counted_of_first hfirst hdvd hstep hT (by omega) hend, by omega⟩
  · rintro ⟨⟨hend, -⟩, hlt⟩
    refine ⟨hend, .inr ⟨rfl, ?_⟩⟩
    show leNat (leBytes table.keys.timeKeyLen (lastTime b.1 rest)) + s₀ ≤ T
    rw [hstart]
    exact add_le_of_dvd hlastdvd hT hlt

/-- Nothing is counted right of a last bucket that ends with the range. -/
theorem TimesOf.right_iff (hT : s₀ ∣ T) (hsize : lastTime b.1 rest < 256 ^ table.keys.timeKeyLen) :
    CountedBucket table history row s₀ range T ∧ lastTime b.1 rest < T ↔
      ¬atEnd range bs = true ∧ CountedBucket table history row s₀
        (rightRange table.keys.timeKeyLen range (lastTime b.1 rest)) T := by
  rw [h.counted_rightRange hfirst hdvd hstep hs₀ hT hsize, iff_and_self]
  rintro ⟨⟨hend, -⟩, hlt⟩ hat
  have hlast := h.last_of_atEnd hfirst hat
  rcases hend with hlt' | ⟨-, heq⟩ <;> omega

/-- The rows of the merged buckets. -/
theorem TimesOf.merged_iff (ht : Occurs table.keys history row t) :
    inBuckets step (b :: rest) t = true ↔
      b.1 < roundUp s₀ t + step ∧ roundUp s₀ t ≤ lastTime b.1 rest := by
  have hpos : 0 < step := by omega
  have hle := (lastTime_spec (h.sorted.sublist hfirst.sub)).2
  have hlastdvd := h.last_dvd hfirst
  have ht₀ := le_roundUp hs₀ t
  have hts := le_roundUp hpos t
  have hlt := roundUp_lt hpos t
  constructor
  · intro hin
    have hfrom := ((h.inBuckets_iff hfirst ht).mp hin).1
    obtain ⟨c, hc, heq⟩ := any_eq_true.mp hin
    have heq : roundUp step t = c.1 := of_decide_eq_true heq
    have hclast := hle c hc
    refine ⟨by omega, (roundUp_le_iff hs₀ (hdvd.trans hlastdvd)).mpr (by omega)⟩
  · rintro ⟨hfrom, hto⟩
    refine (h.inBuckets_iff hfirst ht).mpr ⟨?_, ?_⟩
    · by_contra hnot
      have hstep' := add_le_of_dvd (dvd_roundUp step t) (h.dvd hfirst.mem) (Nat.lt_of_not_le hnot)
      have := (roundUp_le_iff hs₀ (hdvd.trans (dvd_roundUp step t))).mpr hts
      omega
    · exact (h.last_end hfirst).1.mono ((roundUp_le_iff hpos hlastdvd).mpr (by omega))

/-- **The counted rows are the merged ones, those left and those right of them.** -/
theorem TimesOf.counted_split (ht : Occurs table.keys history row t) :
    CountedBucket table history row s₀ range (roundUp s₀ t) ↔
      inBuckets step (b :: rest) t = true ∨
      leNat range.start + step < b.1 ∧
        CountedBucket table history row s₀ range (roundUp s₀ t) ∧ roundUp s₀ t ≤ b.1 - step ∨
      CountedBucket table history row s₀ range (roundUp s₀ t) ∧
        lastTime b.1 rest < roundUp s₀ t := by
  rw [h.merged_iff hfirst hdvd hstep hs₀ ht]
  constructor
  · intro hcount
    by_cases hright : lastTime b.1 rest < roundUp s₀ t
    · exact .inr (.inr ⟨hcount, hright⟩)
    by_cases hin : b.1 < roundUp s₀ t + step
    · exact .inl ⟨hin, by omega⟩
    · have hleft : leNat range.start + step < b.1 := by
        by_contra hnot
        exact hin (first_of_counted hs₀ hstep hfirst.valid hnot hcount)
      exact .inr (.inl ⟨hleft, hcount, by omega⟩)
  · rintro (⟨hin, hto⟩ | ⟨-, hcount, -⟩ | ⟨hcount, -⟩)
    · refine h.counted_of_first hfirst hdvd hstep (dvd_roundUp s₀ t) hin ?_
      exact (h.last_end hfirst).1.mono hto
    · exact hcount
    · exact hcount

end Split

/-! ## §5. The levels of a query. -/

theorem step_zero_dvd {steps : List Nat} (hchain : steps.IsChain fun a b => a < b ∧ a ∣ b)
    {s : Nat} (hs₀ : steps[0]? = some s₀) (hs : s ∈ steps) : s₀ ∣ s := by
  obtain ⟨rest, rfl⟩ : ∃ rest, steps = s₀ :: rest := by
    cases steps with
    | nil => cases hs₀
    | cons a rest => exact ⟨rest, by rw [Option.some.inj hs₀]⟩
  have hdvd := isChain_iff_pairwise.mp (hchain.imp fun _ _ h => h.2)
  rcases mem_cons.mp hs with rfl | hs
  · exact Nat.dvd_refl s
  · exact (pairwise_cons.mp hdvd).1 s hs

/-- A query on a table after some inserts: what is asked for, and times that leave
room for a step. -/
structure QuerySetup (colType : Bytes → FieldType) (table : CumulativeTable)
    (history : List RowData) (st : CumulativeDb table.keys.timeKeyLen) (row : Bytes) (s₀ : Nat)
    (want : List AggregateDesc) : Prop where
  columns : IntegerColumns colType table.descs history
  indexed : Indexed colType table history st
  rounds : ∀ rdata ∈ history, RoundsUp table rdata
  room : ∀ t, Occurs table.keys history row t → ∀ s ∈ table.steps, ∀ s' ∈ table.steps,
    roundUp s t + s' < 2 ^ 64
  least : table.steps[0]? = some s₀
  sorted : AggregateDesc.Sorted want
  mergeable : ∀ d ∈ want, d.Mergeable

section Query

variable {want : List AggregateDesc}

/-- **What the loop of a level does**: nothing, or it merges the buckets from the
first valid one on. -/
theorem QuerySetup.loop_cases (h : QuerySetup colType table history st row s₀ want)
    (htimes : TimesOf colType table history row range step bs) {result : List AggregateDesc}
    {p : Nat → Bool} (hdisj : ∀ b rest, FirstValid range step bs b rest → ∀ t,
      Occurs table.keys history row t → p t = true → inBuckets step (b :: rest) t = false)
    (hanswers : Answers colType table want result (rowsOf table.keys row p history)) :
    (∀ b ∈ bs, ¬ValidFirst range step b.1) ∧
      loopTimes funcs range step bs result =
        some ⟨false, false, atEnd range bs, 0, 0, result⟩ ∨
    ∃ b rest merged, FirstValid range step bs b rest ∧
      loopTimes funcs range step bs result =
        some ⟨true, !decide (leNat range.start + step < b.1), atEnd range bs,
          if leNat range.start + step < b.1 then b.1 - step else 0, lastTime b.1 rest, merged⟩ ∧
      Answers colType table want merged
        (rowsOf table.keys row (fun t => p t || inBuckets step (b :: rest) t) history) := by
  unfold loopTimes
  cases hdrop : bs.dropWhile fun b => decide ¬ValidFirst range step b.1 with
  | nil =>
    refine .inl ⟨fun b hb hvalid => ?_, rfl⟩
    exact of_decide_eq_true (dropWhile_eq_nil_iff.mp hdrop b hb) hvalid
  | cons b rest =>
    have hfirst := htimes.firstValid hdrop
    obtain ⟨merged, hmerge, hmerged⟩ := @Answers.mergeTimes funcs _ _ _ _ step (b :: rest) _ _ _
      h.columns h.sorted h.mergeable (htimes.sorted.sublist hfirst.sub)
      (fun b' hb' => htimes.stored b' (hfirst.sub.mem hb')) p (hdisj b rest hfirst) hanswers
    refine .inr ⟨b, rest, merged, hfirst, ?_, hmerged⟩
    simp only [hmerge]
    rfl

variable (funcs colType table history st row s₀ want) in
def LevelCounts (level : Nat) : Prop :=
  ∀ (range : Range) (result : List AggregateDesc) (p : Nat → Bool),
    range.start.length = table.keys.timeKeyLen → range.stop.length = table.keys.timeKeyLen →
    (∀ s ∈ table.steps, leNat range.start + s < 2 ^ 64) →
    (∀ t, Occurs table.keys history row t → p t = true →
      ¬CountedBucket table history row s₀ range (roundUp s₀ t)) →
    Answers colType table want result (rowsOf table.keys row p history) →
    ∃ result',
      innerCumulativeQuery funcs table.keys.timeKeyLen table.steps st row level range result =
        some result' ∧
      Answers colType table want result'
        (rowsOf table.keys row (fun t => p t || counted table history row s₀ range t) history)

/-- The finest level. -/
theorem QuerySetup.level_zero (h : QuerySetup colType table history st row s₀ want) :
    LevelCounts funcs colType table history st row s₀ want 0 := by
  intro range result p hstart hstop hroom hdisj hanswers
  have hmem : s₀ ∈ table.steps := mem_of_getElem? h.least
  have hs₀ := table.steps_pos s₀ hmem
  have htimes := timesOf_levelTimes row h.indexed hstart h.rounds h.least
  have hloop := innerLoop_eq funcs row 0 h.indexed hstart hs₀ hstop (hroom s₀ hmem) result
  generalize levelTimes (st.storeAt 0) (row ++ [levelByte 0]) range = bs at htimes hloop
  have hin : ∀ b rest, FirstValid range s₀ bs b rest → ∀ t, Occurs table.keys history row t →
      (inBuckets s₀ (b :: rest) t = true ↔
        CountedBucket table history row s₀ range (roundUp s₀ t)) := by
    intro b rest hfirst t ht
    rw [htimes.inBuckets_iff hfirst ht]
    constructor
    · rintro ⟨hle, hend⟩
      exact htimes.counted_of_valid hfirst.mem hfirst.valid hle hend
    · intro hcount
      obtain ⟨b', hb', hvalid, hle⟩ := htimes.valid_of_counted ht hcount
      exact ⟨(hfirst.first b' hb' hvalid).trans hle, hcount.1⟩
  unfold innerCumulativeQuery
  simp only [h.least, Option.bind_eq_bind, Option.bind_some, hloop]
  have hnew : ∀ b rest, FirstValid range s₀ bs b rest → ∀ t, Occurs table.keys history row t →
      p t = true → inBuckets s₀ (b :: rest) t = false := by
    intro b rest hfirst t ht hp
    exact Bool.eq_false_iff.mpr fun hb => hdisj t ht hp ((hin b rest hfirst t ht).mp hb)
  rcases h.loop_cases htimes hnew hanswers with
    ⟨hnone, hcase⟩ | ⟨b, rest, merged, hfirst, hcase, hmerged⟩
  · rw [hcase]
    refine ⟨result, rfl, hanswers.congr fun t ht => ?_⟩
    have hnot : ¬CountedBucket table history row s₀ range (roundUp s₀ t) := by
      intro hcount
      obtain ⟨b, hb, hvalid, -⟩ := htimes.valid_of_counted ht hcount
      exact hnone b hb hvalid
    simp [counted, hnot]
  · rw [hcase]
    refine ⟨merged, rfl, hmerged.congr fun t ht => ?_⟩
    simp [counted, hin b rest hfirst t ht]

theorem QuerySetup.bucket_bounds (h : QuerySetup colType table history st row s₀ want)
    (hstep : step ∈ table.steps) (htimes : TimesOf colType table history row range step bs) :
    ∀ b ∈ bs, b.1 < 256 ^ table.keys.timeKeyLen ∧ ∀ s ∈ table.steps, b.1 + s < 2 ^ 64 := by
  intro b hb
  obtain ⟨t, ht, heq⟩ := htimes.occurs hb
  rw [← heq]
  refine ⟨?_, h.room t ht step hstep⟩
  obtain ⟨rdata, hmem, hrow⟩ := ht
  exact h.rounds rdata hmem row t hrow step hstep

section Succ

variable {b : Nat × Bytes} {result : List AggregateDesc} {p : Nat → Bool}

def leftRows (table : CumulativeTable) (history : List RowData) (row : Bytes) (s₀ : Nat)
    (range : Range) (step : Nat) (b : Nat × Bytes) (t : Nat) : Bool :=
  decide (leNat range.start + step < b.1) &&
    counted table history row s₀ (leftRange table.keys.timeKeyLen range (b.1 - step)) t

theorem leftRows_eq (step t : Nat) :
    leftRows table history row s₀ range step b t = true ↔ leNat range.start + step < b.1 ∧
      CountedBucket table history row s₀ (leftRange table.keys.timeKeyLen range (b.1 - step))
        (roundUp s₀ t) := by
  rw [leftRows, counted, Bool.and_eq_true, decide_eq_true_iff, decide_eq_true_iff]

theorem leftRows_iff (hb : EndOk range b.1) (hsize : b.1 < 256 ^ table.keys.timeKeyLen) {t : Nat} :
    leftRows table history row s₀ range step b t = true ↔ leNat range.start + step < b.1 ∧
      CountedBucket table history row s₀ range (roundUp s₀ t) ∧ roundUp s₀ t ≤ b.1 - step := by
  rw [leftRows_eq, counted_leftRange hb hsize]

/-- A range that the level below is asked for, or not. -/
theorem LevelCounts.part (ih : LevelCounts funcs colType table history st row s₀ want level)
    {c : Prop} [Decidable c] {q : Nat → Bool}
    (hq : ∀ t, q t = true ↔ c ∧ CountedBucket table history row s₀ range (roundUp s₀ t))
    (hstart : range.start.length = table.keys.timeKeyLen)
    (hstop : range.stop.length = table.keys.timeKeyLen)
    (hroom : ∀ s ∈ table.steps, leNat range.start + s < 2 ^ 64)
    (hdisj : ∀ t, Occurs table.keys history row t → p t = true → ¬q t = true)
    (hanswers : Answers colType table want result (rowsOf table.keys row p history)) :
    ∃ result',
      (if c then innerCumulativeQuery funcs table.keys.timeKeyLen table.steps st row level range
        result else some result) = some result' ∧
      Answers colType table want result'
        (rowsOf table.keys row (fun t => p t || q t) history) := by
  by_cases hc : c
  · rw [if_pos hc]
    obtain ⟨result', hquery, hanswers'⟩ := ih range result p hstart hstop hroom
      (fun t ht hp hcount => hdisj t ht hp ((hq t).mpr ⟨hc, hcount⟩)) hanswers
    refine ⟨result', hquery, hanswers'.congr fun t _ => ?_⟩
    simp [hq, hc, counted]
  · rw [if_neg hc]
    refine ⟨result, rfl, hanswers.congr fun t _ => ?_⟩
    simp [hq, hc]

end Succ

/-- **Every level counts the same rows.**  By induction over the levels: the rows
of the valid buckets, and those the level below counts left and right of them. -/
theorem QuerySetup.levelCounts (h : QuerySetup colType table history st row s₀ want) {level : Nat}
    (hlevel : level < table.steps.length) :
    LevelCounts funcs colType table history st row s₀ want level := by
  induction level with
  | zero => exact h.level_zero
  | succ level ih =>
    intro range result p hstart hstop hroom hdisj hanswers
    have ih := ih (by omega)
    have hone := two_pow_le_step table.steps_pos table.steps_chain hlevel
    have hstep : table.steps[level + 1]? = _ := getElem?_eq_getElem hlevel
    generalize table.steps[level + 1] = step at hone hstep
    have hmem : step ∈ table.steps := mem_of_getElem? hstep
    have hs₀ := table.steps_pos s₀ (mem_of_getElem? h.least)
    have hdvd := step_zero_dvd table.steps_chain h.least hmem
    replace hone : 1 < step := (Nat.one_lt_two_pow (Nat.succ_ne_zero level)).trans_le hone
    have htimes := timesOf_levelTimes row h.indexed hstart h.rounds hstep
    have hloop := innerLoop_eq funcs row (level + 1) h.indexed hstart (by omega) hstop
      (hroom step hmem) result
    generalize levelTimes (st.storeAt (level + 1)) (row ++ [levelByte (level + 1)]) range = bs
      at htimes hloop
    unfold innerCumulativeQuery
    simp only [hstep, Option.bind_eq_bind, Option.bind_some, hloop]
    -- what is merged here is counted
    have hnew : ∀ b rest, FirstValid range step bs b rest →
        ∀ t, Occurs table.keys history row t → p t = true →
        inBuckets step (b :: rest) t = false := by
      intro b rest hfirst t ht hp
      refine Bool.eq_false_iff.mpr fun hb => hdisj t ht hp ?_
      exact (htimes.counted_split hfirst hdvd hone hs₀ ht).mpr (.inl hb)
    rcases h.loop_cases htimes hnew hanswers with
      ⟨hnone, hcase⟩ | ⟨b, rest, merged, hfirst, hcase, hmerged⟩
    · rw [hcase]
      exact ih range result p hstart hstop hroom hdisj hanswers
    · rw [hcase]
      have hbound := h.bucket_bounds hmem htimes
      obtain ⟨hlastend, hlast⟩ := htimes.last_end hfirst
      obtain ⟨b', hb', hlast'⟩ := htimes.last_mem hfirst
      obtain ⟨hbsize, -⟩ := hbound b hfirst.mem
      obtain ⟨hlsize, hlroom⟩ := hbound b' hb'
      rw [hlast'] at hlsize hlroom
      have hbend := (htimes.bounds b hfirst.mem).2
      have hmid := fun t ht => htimes.merged_iff (t := t) hfirst hdvd hone hs₀ ht
      obtain ⟨result₁, hleft, hanswers₁⟩ := ih.part (leftRows_eq step) hstart
        (leBytes_length _ _) hroom
        (fun t ht hor hl => by
          obtain ⟨hlt, hcount, hle⟩ := (leftRows_iff hbend hbsize).mp hl
          rcases Bool.or_eq_true_iff.mp hor with hp | hin
          · exact hdisj t ht hp hcount
          · have := (hmid t ht).mp hin
            omega) hmerged
      obtain ⟨result₂, hright, hanswers₂⟩ := ih.part
        (fun t => decide_eq_true_iff.trans
          (htimes.right_iff hfirst hdvd hone hs₀ (dvd_roundUp s₀ t) hlsize))
        (leBytes_length _ _) hstop (by rwa [rightRange, leNat_leBytes_of_lt hlsize])
        (fun t ht hor hr => by
          obtain ⟨hcount, hlt⟩ := of_decide_eq_true hr
          rcases Bool.or_eq_true_iff.mp hor with hor | hl
          · rcases Bool.or_eq_true_iff.mp hor with hp | hin
            · exact hdisj t ht hp hcount
            · have := (hmid t ht).mp hin
              omega
          · obtain ⟨-, -, hle⟩ := (leftRows_iff hbend hbsize).mp hl
            omega) hanswers₁
      rw [ite_not] at hright
      refine ⟨result₂, ?_, hanswers₂.congr fun t ht => ?_⟩
      · -- the borders of the two ranges are in order
        have hrt : lastTime b.1 rest ≤ leNat range.stop := by
          rcases hlastend with hlt | ⟨-, heq⟩ <;> omega
        by_cases hl : leNat range.start + step < b.1
        · rw [if_pos hl] at hleft
          have hle : ¬leNat range.start > b.1 - step := by omega
          simp [hl, hle, hleft, hrt, hright]
        · rw [if_neg hl] at hleft
          cases hleft
          simp [hl, hrt, hright]
      · simp only [Bool.or_eq_true, decide_eq_true_eq, leftRows_iff hbend hbsize, counted, or_assoc]
        exact or_congr_right (htimes.counted_split hfirst hdvd hone hs₀ ht).symm

end Query

/-! ## §6. Whole queries. -/

abbrev Inside (time : Range) (s₀ t : Nat) : Prop :=
  ∀ u ≤ roundUp s₀ t, roundUp s₀ t < u + s₀ → time.Holds timeRank [(u : Int)]

/-- No bucket at the border is missed: the start is exclusive, or its own bucket
is found, or no row inside the range is of a bucket that ends one step behind the
start, or just before that. -/
def StartClear (table : CumulativeTable) (history : List RowData) (row : Bytes) (s₀ : Nat)
    (time : Range) : Prop :=
  (wholeTimeRange table.keys.timeKeyLen time).inclusiveStart = false ∨
    StartFound table history row s₀ (wholeTimeRange table.keys.timeKeyLen time) ∨
    ∀ t, Occurs table.keys history row t → Inside time s₀ t →
      roundUp s₀ t ≠ leNat (wholeTimeRange table.keys.timeKeyLen time).start + s₀ ∧
        roundUp s₀ t + 1 ≠ leNat (wholeTimeRange table.keys.timeKeyLen time).start + s₀

section Whole

variable {time : Range}

theorem above_whole (u : Nat) :
    time.Above timeRank [(u : Int)] ↔
      leNat (wholeTimeRange table.keys.timeKeyLen time).start < u ∨
        (wholeTimeRange table.keys.timeKeyLen time).inclusiveStart = true ∧
          leNat (wholeTimeRange table.keys.timeKeyLen time).start = u := by
  rw [above_timeRank]
  unfold wholeTimeRange
  cases time.hasStart with
  | true => simp
  | false =>
    simp only [Bool.false_eq_true, false_implies, if_false, leNat_replicate_zero, Bool.not_false,
      Bool.or_true, true_and, true_iff]
    omega

theorem below_whole {u : Nat} (hu : u < 256 ^ table.keys.timeKeyLen) :
    time.Below timeRank [(u : Int)] ↔ EndOk (wholeTimeRange table.keys.timeKeyLen time) u := by
  rw [below_timeRank]
  unfold EndOk wholeTimeRange
  cases time.hasEnd with
  | true => simp
  | false =>
    have hmax := leNat_replicate_max table.keys.timeKeyLen
    simp only [Bool.false_eq_true, false_implies, if_false, Bool.not_false, Bool.or_true,
      true_and, true_iff]
    omega

/-- When a bucket of the finest level is inside the range. -/
theorem inside_iff (hs₀ : 0 < s₀) (hvalid : time.invalid = false) {t : Nat}
    (hsize : roundUp s₀ t < 256 ^ table.keys.timeKeyLen) {whole : Range}
    (hwhole : wholeTimeRange table.keys.timeKeyLen time = whole) :
    Inside time s₀ t ↔
      EndOk whole (roundUp s₀ t) ∧
      (whole.inclusiveStart = true ∧
          (leNat whole.start + s₀ ≤ roundUp s₀ t + 1 ∨
            roundUp s₀ t = 0 ∧ leNat whole.start = 0) ∨
        whole.inclusiveStart = false ∧
          leNat whole.start + s₀ ≤ roundUp s₀ t) := by
  have hT := dvd_roundUp s₀ t
  unfold Inside
  generalize roundUp s₀ t = T at hT hsize ⊢
  have hholds : ∀ u ≤ T, time.Holds timeRank [(u : Int)] ↔
      (leNat whole.start < u ∨
        whole.inclusiveStart = true ∧
          leNat whole.start = u) ∧
      EndOk whole u := by
    intro u hu
    unfold Range.Holds
    rw [@above_whole table, below_whole (lt_of_le_of_lt hu hsize), hwhole]
    simp [hvalid]
  -- the least time of the bucket
  have hleast := eq_zero_or_le_of_dvd hT
  constructor
  · intro hall
    refine ⟨((hholds T le_rfl).mp (hall T le_rfl (by omega))).2, ?_⟩
    have hfirst := (hholds (T + 1 - s₀) (by omega)).mp (hall (T + 1 - s₀) (by omega) (by omega))
    cases hincl : whole.inclusiveStart with
    | true => exact .inl ⟨rfl, by omega⟩
    | false =>
      simp only [hincl, Bool.false_eq_true, false_and, or_false] at hfirst
      exact .inr ⟨rfl, by omega⟩
  · rintro ⟨hend, hstart⟩ u hu hlt
    refine (hholds u hu).mpr ⟨?_, hend.mono hu⟩
    rcases hstart with ⟨hincl, hstart⟩ | ⟨-, hstart⟩
    · rw [hincl]
      simp only [true_and]
      omega
    · exact .inl (by omega)

/-- **The counted rows are the rows inside exactly if no bucket at the border is
missed.** -/
theorem startClear_iff (hs₀ : 0 < s₀) (hvalid : time.invalid = false)
    (hsize : ∀ t, Occurs table.keys history row t →
      roundUp s₀ t < 256 ^ table.keys.timeKeyLen) :
    StartClear table history row s₀ time ↔ ∀ t, Occurs table.keys history row t →
      (counted table history row s₀ (wholeTimeRange table.keys.timeKeyLen time) t = true ↔
        Inside time s₀ t) := by
  have hinside := fun t ht => inside_iff (t := t) hs₀ hvalid (hsize t ht) rfl
  unfold StartClear counted
  simp only [decide_eq_true_iff]
  unfold CountedBucket
  generalize wholeTimeRange table.keys.timeKeyLen time = whole at hinside ⊢
  cases hincl : whole.inclusiveStart with
  | false =>
    simp only [true_or, true_iff]
    intro t ht
    rw [hinside t ht]
    simp [hincl]
  | true =>
    simp only [Bool.true_eq_false, false_or, true_and, false_and, or_false]
    by_cases hfound : StartFound table history row s₀ whole
    · -- a least step of 1, or a start at 0
      simp only [hfound, true_or, and_true, true_iff]
      intro t ht
      rw [hinside t ht]
      have hcond := hfound.1
      have := eq_zero_or_le_of_dvd (dvd_roundUp s₀ t)
      refine and_congr_right fun _ => ?_
      simp only [hincl, true_and, Bool.true_eq_false, false_and, or_false]
      omega
    · simp only [hfound, false_or, and_false, or_false]
      refine forall_congr' fun t => forall_congr' fun ht => ?_
      rw [hinside t ht]
      simp only [hincl, true_and, Bool.true_eq_false, false_and, or_false]
      -- a bucket of the time 0 would be the one of the start
      have hzero : ¬(roundUp s₀ t = 0 ∧
          leNat whole.start = 0) := by
        rintro ⟨hT, hlt⟩
        refine hfound ⟨.inr hlt, ?_⟩
        rw [hlt, ← hT]
        exact rowsOf_inBucket_ne_nil ht
      constructor
      · intro hborder
        refine and_congr_right fun hend => ⟨fun hlt => .inl (by omega), fun hin => ?_⟩
        have := hborder ⟨hend, hin⟩
        omega
      · rintro hiff ⟨hend, hin⟩
        have := (hiff.mpr ⟨hend, hin⟩).2
        omega

theorem inside_of_counted (hs₀ : 0 < s₀) (hvalid : time.invalid = false) {t : Nat}
    (hsize : roundUp s₀ t < 256 ^ table.keys.timeKeyLen)
    (h : counted table history row s₀ (wholeTimeRange table.keys.timeKeyLen time) t = true) :
    Inside time s₀ t := by
  obtain ⟨hend, hstart⟩ := of_decide_eq_true h
  refine (inside_iff hs₀ hvalid hsize rfl).mpr ⟨hend, ?_⟩
  have hmultiple := eq_zero_or_le_of_dvd (dvd_roundUp s₀ t)
  rcases hstart with ⟨hincl, hlt | ⟨hle, hcond, -⟩⟩ | hexcl
  · exact .inl ⟨hincl, .inl (by omega)⟩
  · exact .inl ⟨hincl, by omega⟩
  · exact .inr hexcl

/-- What a query is asked: one row key, and times of the right length. -/
structure KeyQuery (table : CumulativeTable) (rowRange time : Range) : Prop where
  hasStart : rowRange.hasStart = true
  hasEnd : rowRange.hasEnd = true
  same : rowRange.start = rowRange.stop
  inclusiveStart : rowRange.inclusiveStart = true
  inclusiveEnd : rowRange.inclusiveEnd = true
  valid : rowRange.invalid = false
  startLength : time.hasStart = true → time.start.length = table.keys.timeKeyLen
  stopLength : time.hasEnd = true → time.stop.length = table.keys.timeKeyLen

theorem whole_start_length (h : time.hasStart = true → time.start.length = table.keys.timeKeyLen) :
    (wholeTimeRange table.keys.timeKeyLen time).start.length = table.keys.timeKeyLen :=
  startTime_length h

theorem whole_stop_length (h : time.hasEnd = true → time.stop.length = table.keys.timeKeyLen) :
    (wholeTimeRange table.keys.timeKeyLen time).stop.length = table.keys.timeKeyLen :=
  endTime_length h

theorem cumulativeQuery_eq {conds : List FilterCondition} {rowRange : Range}
    {want : List AggregateDesc}
    (hget : getRange table.keys.rowKey table.keys.timeKey conds = some (rowRange, time))
    (hkey : KeyQuery table rowRange time) :
    cumulativeQuery funcs table st conds want =
      if time.invalid then some want
      else innerCumulativeQuery funcs table.keys.timeKeyLen table.steps st rowRange.start
        (table.steps.length - 1) (wholeTimeRange table.keys.timeKeyLen time) want := by
  have hlength : ((time.hasStart && decide (time.start.length ≠ table.keys.timeKeyLen)) ||
      (time.hasEnd && decide (time.stop.length ≠ table.keys.timeKeyLen))) = false := by
    have hstart := hkey.startLength
    have hend := hkey.stopLength
    cases hs : time.hasStart <;> cases he : time.hasEnd <;> simp_all
  unfold cumulativeQuery
  simp only [hget, Option.bind_eq_bind, Option.bind_some]
  simp only [hkey.hasStart, hkey.hasEnd, hkey.inclusiveStart, hkey.inclusiveEnd, ← hkey.same,
    hkey.valid, Bool.and_self, Bool.not_true, ne_eq, not_true_eq_false, decide_false, Bool.or_self,
    Bool.false_eq_true, if_false, Bool.false_or]
  cases time.invalid with
  | true => rfl
  | false =>
    simp only [Bool.false_eq_true, if_false]
    rw [if_neg]
    simpa using hlength

/-- Equal counts of nested sets of rows. -/
theorem filter_eq_of_counts {v : LowData} {p q : RowData → Bool}
    (hsize : history.length < 2 ^ 64) (hpq : ∀ a ∈ history, p a = true → q a = true)
    (hp : AggrFunc.Counts v (history.filter p).length)
    (hq : AggrFunc.Counts v (history.filter q).length) :
    ∀ a ∈ history, q a = true → p a = true := by
  have hple := length_filter_le p history
  have hqle := length_filter_le q history
  have hlen : (history.filter q).length ≤ (history.filter p).length := by
    rcases hp with ⟨hv, hp⟩ | ⟨hv, hp⟩ <;> rcases hq with ⟨hv', hq⟩ | ⟨hv', hq⟩ <;> omega
  have hsub : (history.filter p).Sublist (history.filter q) := by
    have hmono : history.filter p = (history.filter q).filter p := by
      rw [filter_filter]
      refine filter_congr fun a ha => ?_
      cases hpa : p a with
      | false => simp
      | true => simp [hpq a ha hpa]
    rw [hmono]
    exact filter_sublist
  have heq := hsub.eq_of_length_le hlen
  intro a ha hqa
  have hmem : a ∈ history.filter p := heq ▸ mem_filter.mpr ⟨ha, hqa⟩
  exact (mem_filter.mp hmem).2

theorem Answers.count_star {want result : List AggregateDesc}
    (h : result.map AggregateDesc.key = want.map AggregateDesc.key)
    (hstar : ∃ d ∈ want, d.key = (.count, [42]) ∧ d.key ∈ table.descs.map AggregateDesc.key) :
    ∃ v, ∀ rows, Answers colType table want result rows → AggrFunc.Counts v rows.length := by
  obtain ⟨d, hd, hkey, hconf⟩ := hstar
  have hmem : d.key ∈ result.map AggregateDesc.key := h ▸ mem_map_of_mem hd
  obtain ⟨d', hd', hkey'⟩ := mem_map.mp hmem
  refine ⟨d'.value, fun rows hrows => ?_⟩
  have hagg := hrows.aggregates d' hd' (hkey' ▸ hconf)
  obtain ⟨hfunc, hname⟩ := Prod.mk.inj (hkey'.trans hkey)
  unfold Aggregates at hagg
  rw [hfunc, hname] at hagg
  have hall : rows.countP (hasColumn [42]) = rows.length := countP_eq_length.mpr fun _ _ => rfl
  rw [← hall]
  exact hagg

end Whole

section Exact

variable {conds : List FilterCondition} {rowRange time : Range} {want : List AggregateDesc}

/-- **When cumulative queries are exact.**  A query of a row key and a time range
gives, for every aggregate of the configuration, the one of the inserted rows with
the key whose least bucket lies inside the range, if no bucket at the start is
missed.  For `COUNT(*)` only then. -/
theorem cumulativeQuery_exact (hinsert : insertAll funcs table history = some st)
    (hcols : IntegerColumns colType table.descs history)
    (hnames : ∀ d ∈ table.descs, d.name.length < 256)
    (hrounds : ∀ rdata ∈ history, RoundsUp table rdata)
    (hleast : table.steps[0]? = some s₀)
    (hget : getRange table.keys.rowKey table.keys.timeKey conds = some (rowRange, time))
    (hkey : KeyQuery table rowRange time)
    (hroom : ∀ s ∈ table.steps, ∀ t, Occurs table.keys history rowRange.start t →
      ∀ s' ∈ table.steps, roundUp s t + s' < 2 ^ 64)
    (hstart : ∀ s ∈ table.steps,
      leNat (wholeTimeRange table.keys.timeKeyLen time).start + s < 2 ^ 64)
    (hsorted : AggregateDesc.Sorted want) (hmergeable : ∀ d ∈ want, d.Mergeable)
    (hempty : ∀ d ∈ want, d.value = zeroData) :
    ∃ result, cumulativeQuery funcs table st conds want = some result ∧
      (StartClear table history rowRange.start s₀ time →
        Answers colType table want result
          (rowsOf table.keys rowRange.start (fun t => Inside time s₀ t) history)) ∧
      ((∃ d ∈ want, d.key = (.count, [42]) ∧ d.key ∈ table.descs.map AggregateDesc.key) →
        history.length < 2 ^ 64 →
        Answers colType table want result
          (rowsOf table.keys rowRange.start (fun t => Inside time s₀ t) history) →
        StartClear table history rowRange.start s₀ time) := by
  have hmem : s₀ ∈ table.steps := mem_of_getElem? hleast
  have hs₀ := table.steps_pos s₀ hmem
  have hnil : Answers colType table want want
      (rowsOf table.keys rowRange.start (fun _ => false) history) := by
    have hrows : rowsOf table.keys rowRange.start (fun _ => false) history = [] :=
      filter_eq_nil_iff.mpr fun a _ ha => by
        obtain ⟨t, -, ht⟩ := ofKey_eq_true.mp ha
        cases ht
    rw [hrows]
    exact ⟨rfl, fun d hd _ => Aggregates.nil (hempty d hd)⟩
  rw [cumulativeQuery_eq hget hkey]
  by_cases hinvalid : time.invalid = true
  · -- an invalid range has nothing inside
    have hnone : ∀ t, ¬Inside time s₀ t := by
      intro t hin
      have := (hin (roundUp s₀ t) le_rfl (by omega)).1
      rw [hinvalid] at this
      cases this
    rw [if_pos hinvalid]
    refine ⟨want, rfl, fun _ => ?_, fun _ _ _ => ?_⟩
    · simpa [hnone] using hnil
    · exact .inr (.inr fun t _ hin => absurd hin (hnone t))
  · rw [if_neg hinvalid]
    have hvalid : time.invalid = false := Bool.eq_false_iff.mpr hinvalid
    have hsetup : QuerySetup colType table history st rowRange.start s₀ want :=
      ⟨hcols, indexed_insertAll hcols (fun _ h => h) hnames hrounds hinsert, hrounds,
        fun t ht s hs s' hs' => hroom s hs t ht s' hs', hleast, hsorted, hmergeable⟩
    have hlevel : table.steps.length - 1 < table.steps.length := by
      have := (List.getElem?_eq_some_iff.mp hleast).1
      omega
    have hwidth : ∀ t, Occurs table.keys history rowRange.start t →
        roundUp s₀ t < 256 ^ table.keys.timeKeyLen := by
      rintro t ⟨rdata, hin, hrow⟩
      exact hrounds rdata hin _ t hrow s₀ hmem
    have hclear := startClear_iff hs₀ hvalid hwidth
    obtain ⟨result, hquery, hanswers⟩ := hsetup.levelCounts hlevel
      (wholeTimeRange table.keys.timeKeyLen time) want (fun _ => false)
      (whole_start_length hkey.startLength) (whole_stop_length hkey.stopLength) hstart
      (fun _ _ hp => by cases hp) hnil
    simp only [Bool.false_or] at hanswers
    refine ⟨result, hquery, fun hc => ?_, ?_⟩
    · refine hanswers.congr fun t ht => ?_
      rw [hclear.mp hc t ht, decide_eq_true_iff]
    · -- one count of two sets of rows
      rintro hstar hsize hinside
      refine hclear.mpr fun t ht => ⟨inside_of_counted hs₀ hvalid (hwidth t ht), fun hin => ?_⟩
      obtain ⟨rdata, hrdata, hrow⟩ := ht
      obtain ⟨v, hv⟩ := Answers.count_star hanswers.keys hstar
      have hpart : ∀ a ∈ history,
          ofKey table.keys rowRange.start (counted table history rowRange.start s₀
            (wholeTimeRange table.keys.timeKeyLen time)) a = true →
          ofKey table.keys rowRange.start (fun t => Inside time s₀ t) a = true := by
        intro a ha hca
        obtain ⟨u, hu, hcu⟩ := ofKey_eq_true.mp hca
        exact ofKey_eq_true.mpr ⟨u, hu,
          decide_eq_true (inside_of_counted hs₀ hvalid (hwidth u ⟨a, ha, hu⟩) hcu)⟩
      have hback := filter_eq_of_counts hsize hpart (hv _ hanswers) (hv _ hinside) rdata hrdata
        (ofKey_eq_true.mpr ⟨t, hrow, decide_eq_true hin⟩)
      obtain ⟨u, hu, hcu⟩ := ofKey_eq_true.mp hback
      cases hrow.symm.trans hu
      exact hcu

end Exact

def tensTable : CumulativeTable where
  keys := smallKeys
  hasTime := by decide
  timeLen := .inl rfl
  steps := [10, 100]
  steps_pos := by decide
  steps_lt := by decide
  steps_chain := by simp
  descs := [⟨.count, [42], zeroData⟩]
  descs_sorted := pairwise_singleton _ _
  descs_empty := by simp
  descs_size := by decide

def noFuncs : AggrFunc.OtherFuncs where
  sum := fun _ _ => zeroData
  other := fun _ _ _ => zeroData
  sum_len _ _ := zeroData_len_lt
  other_len _ _ _ := zeroData_len_lt

/-- A row of the key `a` at a time. -/
def rowAt (t : Nat) : RowData :=
  ⟨[⟨[114], .string, [97]⟩, ⟨[116], .unsignedLong, leBytes 4 t⟩], by simp⟩

theorem cumulativeQuery_exact_two_rows :
    ∃ st, insertAll noFuncs tensTable [rowAt 5, rowAt 120] = some st ∧
      ∃ result, cumulativeQuery noFuncs tensTable st [rowCond .eq [97], timeCond .gt 0]
          [⟨.count, [42], zeroData⟩] = some result ∧
        Answers (fun _ => .longlong) tensTable [⟨.count, [42], zeroData⟩] result
          [rowAt 5, rowAt 120] := by
  have htime : rowTime tensTable.keys (rowAt 5) = some ([97], 5) ∧
      rowTime tensTable.keys (rowAt 120) = some ([97], 120) := by decide
  have hrows : ∀ rdata ∈ [rowAt 5, rowAt 120], ∀ row t,
      rowTime tensTable.keys rdata = some (row, t) → t = 5 ∨ t = 120 := by
    intro rdata hmem row t ht
    rcases mem_pair.mp hmem with rfl | rfl
    · exact .inl (Prod.mk.inj (Option.some.inj (ht.symm.trans htime.1))).2
    · exact .inr (Prod.mk.inj (Option.some.inj (ht.symm.trans htime.2))).2
  refine ⟨(insertAll noFuncs tensTable [rowAt 5, rowAt 120]).get (by decide +kernel),
    (Option.some_get _).symm, ?_⟩
  obtain ⟨result, hquery, hexact, -⟩ := @cumulativeQuery_exact noFuncs (fun _ => .longlong)
    tensTable [rowAt 5, rowAt 120] _ 10 [rowCond .eq [97], timeCond .gt 0]
    ⟨true, true, true, true, false, [97], [97]⟩ ⟨false, false, true, false, false, leBytes 4 0, []⟩
    [⟨.count, [42], zeroData⟩] (Option.some_get _).symm
    ⟨by decide, by simp [tensTable], by decide⟩ (by decide)
    (fun rdata hmem row t ht s hs => by
      rcases hrows rdata hmem row t ht with rfl | rfl <;> revert s <;> decide)
    rfl (by decide) ⟨rfl, rfl, rfl, rfl, rfl, rfl, fun _ => rfl, fun h => by cases h⟩
    (fun s hs t ht => by
      obtain ⟨rdata, hmem, hrow⟩ := ht
      rcases hrows rdata hmem _ t hrow with rfl | rfl <;> revert s <;> decide)
    (by decide) (pairwise_singleton _ _) (by decide) (by decide)
  exact ⟨result, hquery, hexact (.inl rfl)⟩

/-- One row at the time 5, and a query without a time range: the bucket of the
times up to 10 ends one step behind the time 0, and is not counted. -/
theorem first_bucket_missed :
    (insertAll noFuncs tensTable [rowAt 5]).bind (fun st =>
      cumulativeQuery noFuncs tensTable st [rowCond .eq [97]] [⟨.count, [42], zeroData⟩]) =
        some [⟨.count, [42], zeroData⟩] ∧
    (getRange tensTable.keys.rowKey tensTable.keys.timeKey [rowCond .eq [97]]).map Prod.snd =
      some wholeRange ∧
    rowsOf tensTable.keys [97] (fun t => Inside wholeRange 10 t) [rowAt 5] = [rowAt 5] ∧
    ¬AggrFunc.Counts zeroData [rowAt 5].length := by
  refine ⟨by decide +kernel, by decide +kernel, by decide +kernel, ?_⟩
  rintro (⟨-, h⟩ | ⟨h, -⟩) <;> cases h

end Mile.Ldb
