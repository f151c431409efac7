/-
  Mile.Ldb.Buckets
  ────────────────
  **WHAT THE CUMULATIVE INDEX HOLDS.**

  `Aggregates` says what an aggregate is of some rows.  `Indexed` is what every sequence of
  inserts keeps: a bucket holds the aggregates of the inserted rows that belong to it.
-/
import Mile.Ldb.Cumulative
import Mile.Ldb.Scan
import Mile.Lib.Outcomes

namespace Mile.Ldb

open Lib Common List

/-! ## §1. Aggregates of rows. -/

def columnOf (name : Bytes) (rdata : RowData) : Option LowData :=
  rdata.datas.find? fun f => name = f.fieldName

/-- The row counts for the column; every row counts for `*`. -/
def hasColumn (name : Bytes) (rdata : RowData) : Bool :=
  name = [42] || (columnOf name rdata).isSome

/-- The aggregate is the one of the rows: a count, or an extreme value of an
integer column.  Nothing is said of the other functions. -/
def Aggregates (colType : Bytes → FieldType) (d : AggregateDesc) (rows : List RowData) : Prop :=
  match d.funcType with
  | .count => AggrFunc.Counts d.value (rows.countP (hasColumn d.name))
  | .max => AggrFunc.IsMax (colType d.name) d.value (rows.filterMap (columnOf d.name))
  | .min => AggrFunc.IsMin (colType d.name) d.value (rows.filterMap (columnOf d.name))
  | _ => True

/-- The columns of `MAX` and `MIN` hold integers of one type, and values have
32-bit lengths. -/
structure IntegerColumns (colType : Bytes → FieldType) (descs : List AggregateDesc)
    (rows : List RowData) : Prop where
  integer : ∀ d ∈ descs, d.funcType = .max ∨ d.funcType = .min → (colType d.name).IsInteger
  column : ∀ d ∈ descs, d.funcType = .max ∨ d.funcType = .min → ∀ rdata ∈ rows, ∀ v,
    columnOf d.name rdata = some v → AggrFunc.OfColumn (colType d.name) v
  length : ∀ rdata ∈ rows, ∀ v ∈ rdata.datas, v.len < 2 ^ 32

section Aggregates

variable {colType : Bytes → FieldType} {d : AggregateDesc} {rows rows' : List RowData}

theorem Aggregates.nil (h : d.value = zeroData) : Aggregates colType d [] := by
  unfold Aggregates
  rw [h]
  cases d.funcType <;> first
    | trivial
    | exact .inl ⟨rfl, rfl⟩
    | exact AggrFunc.Extreme.nil zeroData_isNull (by decide)

theorem extreme_perm {t : FieldType} {before : Int → Int → Prop} {v : LowData}
    {vs ws : List LowData} (hperm : vs.Perm ws) (h : AggrFunc.Extreme t before v vs) :
    AggrFunc.Extreme t before v ws := by
  rcases h with ⟨hv, htype, hall⟩ | ⟨hv, htype, ⟨x, hx, hxv⟩, hall⟩
  · exact .inl ⟨hv, htype, fun w hw => hall w (hperm.mem_iff.mpr hw)⟩
  · exact .inr ⟨hv, htype, ⟨x, hperm.mem_iff.mp hx, hxv⟩, fun w hw => hall w (hperm.mem_iff.mpr hw)⟩

theorem Aggregates.perm (hperm : rows.Perm rows') (h : Aggregates colType d rows) :
    Aggregates colType d rows' := by
  unfold Aggregates at h ⊢
  cases hf : d.funcType <;> rw [hf] at h
  case count => exact hperm.countP_eq _ ▸ h
  case max | min => exact extreme_perm (hperm.filterMap _) h
  all_goals trivial

variable (hint : d.funcType = .max ∨ d.funcType = .min → (colType d.name).IsInteger)

include hint

variable {funcs : AggrFunc.OtherFuncs}

/-- Aggregates of two sets of rows are merged. -/
theorem Aggregates.merge {e d' : AggregateDesc} (hkey : e.key = d.key) (hkey' : d'.key = d.key)
    (hmerge : AggrFunc.mergeFunc funcs d.funcType d.value e.value = some d'.value)
    (hd : Aggregates colType d rows) (he : Aggregates colType e rows') :
    Aggregates colType d' (rows ++ rows') := by
  obtain ⟨hfe, hne⟩ := Prod.mk.inj hkey
  obtain ⟨hfd, hnd⟩ := Prod.mk.inj hkey'
  unfold Aggregates at hd he ⊢
  rw [hfe, hne] at he
  rw [hfd, hnd, countP_append, filterMap_append]
  cases hf : d.funcType <;> rw [hf] at hd he hmerge hint
  case count =>
    rw [← Option.some.inj hmerge]
    exact hd.merge he
  case max =>
    rw [← Option.some.inj hmerge]
    exact AggrFunc.IsMax.merge (hint (.inl rfl)) hd he
  case min =>
    rw [← Option.some.inj hmerge]
    exact AggrFunc.IsMin.merge (hint (.inr rfl)) hd he
  all_goals trivial

/-- The aggregate of one row. -/
theorem Aggregates.single {rdata : RowData} {d' : AggregateDesc}
    (hcol : d.funcType = .max ∨ d.funcType = .min → ∀ v, columnOf d.name rdata = some v →
      AggrFunc.OfColumn (colType d.name) v)
    (hempty : d.value = zeroData) (h : rowValue funcs rdata d = some d') :
    d'.key = d.key ∧ Aggregates colType d' [rdata] := by
  unfold rowValue at h
  by_cases hstar : d.name = [42]
  · rw [if_pos hstar] at h
    obtain ⟨v, hv, rfl⟩ := Option.map_eq_some_iff.mp h
    refine ⟨rfl, ?_⟩
    unfold Aggregates
    show match d.funcType with | _ => _
    rw [hempty] at hv
    cases hf : d.funcType <;> rw [hf] at hv
    case count =>
      rw [← Option.some.inj hv]
      simpa [hasColumn, hstar] using AggrFunc.Counts.one rfl
    all_goals trivial
  · rw [if_neg hstar] at h
    cases hfind : columnOf d.name rdata with
    | none =>
      have hcount : [rdata].countP (hasColumn d.name) = 0 := by simp [hasColumn, hstar, hfind]
      have hvals : [rdata].filterMap (columnOf d.name) = [] := by simp [hfind]
      rw [show (rdata.datas.find? fun f => decide (d.name = f.fieldName)) = none from hfind] at h
      cases h
      refine ⟨rfl, ?_⟩
      have hnil := @Aggregates.nil colType d hempty
      unfold Aggregates at hnil ⊢
      rw [hcount, hvals]
      exact hnil
    | some f =>
      have hcount : [rdata].countP (hasColumn d.name) = 1 := by simp [hasColumn, hfind]
      have hvals : [rdata].filterMap (columnOf d.name) = [f] := by simp [hfind]
      rw [show (rdata.datas.find? fun f => decide (d.name = f.fieldName)) = some f from hfind] at h
      obtain ⟨v, hv, rfl⟩ := Option.map_eq_some_iff.mp h
      refine ⟨rfl, ?_⟩
      rw [hempty] at hv
      unfold Aggregates
      rw [hcount, hvals]
      show match d.funcType with | _ => _
      cases hf : d.funcType <;> rw [hf] at hv hint hcol
      case count =>
        rw [← Option.some.inj hv]
        exact AggrFunc.Counts.one rfl
      case max =>
        rw [← Option.some.inj hv]
        exact AggrFunc.Extreme.single (hint (.inl rfl)) (fun a => le_refl a)
          (hcol (.inl rfl) f hfind)
      case min =>
        rw [← Option.some.inj hv]
        exact AggrFunc.Extreme.single (hint (.inr rfl)) (fun a => le_refl a)
          (hcol (.inr rfl) f hfind)
      all_goals trivial

end Aggregates

/-! ## §2. Arrays. -/

theorem keys_of_forall₂ {R : AggregateDesc → AggregateDesc → Prop} {ds ds' : List AggregateDesc}
    (h : Forall₂ R ds ds') (hkey : ∀ d d', R d d' → d'.key = d.key) :
    ds'.map AggregateDesc.key = ds.map AggregateDesc.key := by
  induction h with
  | nil => rfl
  | cons hab _ ih => rw [map_cons, map_cons, hkey _ _ hab, ih]

/-- An array with the aggregates of some rows, in the order of the configuration. -/
structure ArrayHolds (colType : Bytes → FieldType) (descs arr : List AggregateDesc)
    (rows : List RowData) : Prop where
  keys : arr.map AggregateDesc.key = descs.map AggregateDesc.key
  fits : ∀ d ∈ arr, d.Fits
  aggregates : ∀ d ∈ arr, Aggregates colType d rows

section Arrays

variable {colType : Bytes → FieldType} {descs arr : List AggregateDesc} {rows : List RowData}
  {funcs : AggrFunc.OtherFuncs}

theorem sorted_of_keys (h : arr.map AggregateDesc.key = descs.map AggregateDesc.key)
    (hsorted : AggregateDesc.Sorted descs) : AggregateDesc.Sorted arr := by
  have hrank : ∀ ds : List AggregateDesc, ds.map AggregateDesc.rank =
      (ds.map AggregateDesc.key).map fun k => toLex (k.1.toByte.toNat, rowRank k.2) := by
    intro ds
    rw [map_map]
    rfl
  have hranks : arr.map AggregateDesc.rank = descs.map AggregateDesc.rank := by
    rw [hrank, hrank, h]
  unfold AggregateDesc.Sorted at hsorted ⊢
  rw [← pairwise_map (f := AggregateDesc.rank) (R := (· ≤ ·))] at hsorted ⊢
  exact hranks ▸ hsorted

theorem ArrayHolds.sorted (h : ArrayHolds colType descs arr rows)
    (hsorted : AggregateDesc.Sorted descs) : AggregateDesc.Sorted arr :=
  sorted_of_keys h.keys hsorted

theorem ArrayHolds.unnamed (h : ArrayHolds colType descs arr rows) :
    ArrayHolds colType descs (arr.map AggregateDesc.unnamed) rows where
  keys := by
    rw [← h.keys, map_map]
    rfl
  fits := by
    intro d hd
    obtain ⟨x, hx, rfl⟩ := mem_map.mp hd
    exact h.fits x hx
  aggregates := by
    intro d hd
    obtain ⟨x, hx, rfl⟩ := mem_map.mp hd
    exact h.aggregates x hx

variable {all : List RowData}

/-- **Values take in an array**: each aggregate of the configuration among them is
then one of the rows of both. -/
theorem ArrayHolds.merge_into (hcols : IntegerColumns colType descs all)
    (hsorted : AggregateDesc.Sorted descs) {want want' : List AggregateDesc}
    {rows' : List RowData} (harr : ArrayHolds colType descs arr rows')
    (hwant : AggregateDesc.Sorted want)
    (hrows : ∀ d ∈ want, d.key ∈ descs.map AggregateDesc.key → Aggregates colType d rows)
    (hmerge : AggregateDesc.merge funcs want arr = some want') :
    want'.map AggregateDesc.key = want.map AggregateDesc.key ∧
      ∀ d ∈ want', d.key ∈ descs.map AggregateDesc.key →
        Aggregates colType d (rows ++ rows') := by
  have hmerged := AggregateDesc.merge_merged hwant (harr.sorted hsorted) hmerge
  refine ⟨keys_of_forall₂ hmerged fun d d' hm => hm.1, ?_⟩
  intro d' hd' hconf
  obtain ⟨d, hd, hkey, hcase⟩ := exists_of_forall₂ hmerged hd'
  rw [hkey] at hconf
  rcases hcase with ⟨e, he, hekey, hvalue⟩ | ⟨hnone, -⟩
  · have hint : d.funcType = .max ∨ d.funcType = .min → (colType d.name).IsInteger := by
      obtain ⟨c, hc, hckey⟩ := mem_map.mp hconf
      obtain ⟨hfc, hnc⟩ := Prod.mk.inj hckey
      exact fun hf => hnc ▸ hcols.integer c hc (hfc ▸ hf)
    exact Aggregates.merge hint hekey hkey hvalue (hrows d hd hconf) (harr.aggregates e he)
  · -- the array has an aggregate for every key of the configuration
    rw [← harr.keys] at hconf
    obtain ⟨e, he, hekey⟩ := mem_map.mp hconf
    exact absurd hekey (hnone e he)

/-- Arrays of two sets of rows are merged. -/
theorem ArrayHolds.merge (hcols : IntegerColumns colType descs all)
    (hsorted : AggregateDesc.Sorted descs) {other arr' : List AggregateDesc}
    {rows' : List RowData} (h : ArrayHolds colType descs arr rows)
    (hother : ArrayHolds colType descs other rows')
    (hmerge : AggregateDesc.merge funcs arr other = some arr') :
    ArrayHolds colType descs arr' (rows ++ rows') := by
  obtain ⟨hkeys, hagg⟩ := hother.merge_into hcols hsorted (h.sorted hsorted)
    (fun d hd _ => h.aggregates d hd) hmerge
  refine ⟨hkeys.trans h.keys, ?_, ?_⟩
  · intro d' hd'
    have hmerged := AggregateDesc.merge_merged (h.sorted hsorted) (hother.sorted hsorted) hmerge
    obtain ⟨d, hd, hkey, ⟨e, he, -, hvalue⟩ | ⟨-, heq⟩⟩ := exists_of_forall₂ hmerged hd'
    · refine ⟨?_, AggrFunc.mergeFunc_len funcs (h.fits d hd).2 (hother.fits e he).2 hvalue⟩
      rw [(Prod.mk.inj hkey).2]
      exact (h.fits d hd).1
    · exact heq ▸ h.fits d hd
  · intro d' hd'
    refine hagg d' hd' ?_
    rw [← h.keys, ← hkeys]
    exact mem_map_of_mem hd'

theorem rowValue_len {rdata : RowData} {d d' : AggregateDesc} (hempty : d.value = zeroData)
    (hlen : ∀ v ∈ rdata.datas, v.len < 2 ^ 32) (h : rowValue funcs rdata d = some d') :
    d'.value.len < 2 ^ 32 := by
  have hzero : d.value.len = 0 := hempty ▸ rfl
  unfold rowValue at h
  split_ifs at h
  · obtain ⟨v, hv, rfl⟩ := Option.map_eq_some_iff.mp h
    exact AggrFunc.computeFunc_len funcs hzero (fun w hw => by cases hw) hv
  · split at h
    · next f hf =>
        obtain ⟨v, hv, rfl⟩ := Option.map_eq_some_iff.mp h
        refine AggrFunc.computeFunc_len funcs hzero (fun w hw => ?_) hv
        exact hlen w (Option.some.inj hw ▸ mem_of_find?_eq_some hf)
    · cases h
      rw [hzero]
      exact Nat.two_pow_pos 32

/-- The array of one row. -/
theorem arrayHolds_row (hempty : ∀ d ∈ descs, d.value = zeroData)
    (hnames : ∀ d ∈ descs, d.name.length < 256)
    (hcols : IntegerColumns colType descs all) {rdata : RowData} (hrow : rdata ∈ all)
    (h : descs.mapM (rowValue funcs rdata) = some arr) :
    ArrayHolds colType descs arr [rdata] := by
  have hrows := mapM_some_forall₂ h
  -- what one aggregate of the configuration becomes
  have hsingle : ∀ d ∈ descs, ∀ d', rowValue funcs rdata d = some d' →
      d'.key = d.key ∧ Aggregates colType d' [rdata] := fun d hd d' hd' =>
    Aggregates.single (hcols.integer d hd)
      (fun hf v hv => hcols.column d hd hf rdata hrow v hv) (hempty d hd) hd'
  refine ⟨?_, ?_, ?_⟩
  · refine keys_of_forall₂ ((forall₂_and_left _ _).mpr ⟨fun d hd => hd, hrows⟩) ?_
    exact fun d d' hdd => (hsingle d hdd.1 d' hdd.2).1
  · intro d' hd'
    obtain ⟨d, hd, hvalue⟩ := exists_of_forall₂ hrows hd'
    refine ⟨?_, rowValue_len (hempty d hd) (hcols.length rdata hrow) hvalue⟩
    rw [(Prod.mk.inj (hsingle d hd d' hvalue).1).2]
    exact hnames d hd
  · intro d' hd'
    obtain ⟨d, hd, hvalue⟩ := exists_of_forall₂ hrows hd'
    exact (hsingle d hd d' hvalue).2

end Arrays

/-! ## §3. Buckets. -/

def rowTime (keys : LdbKeys) (rdata : RowData) : Option (Bytes × Nat) := do
  let (row, time) ← findRowKey keys rdata
  return (row.data, leNat (← time).data)

def ofKey (keys : LdbKeys) (row : Bytes) (test : Nat → Bool) (rdata : RowData) : Bool :=
  (rowTime keys rdata).any fun (k, t) => k = row && test t

def rowsOf (keys : LdbKeys) (row : Bytes) (test : Nat → Bool) (history : List RowData) :
    List RowData :=
  history.filter (ofKey keys row test)

def inBucket (step T : Nat) (t : Nat) : Bool := roundUp step t = T

def BucketSpec (colType : Bytes → FieldType) (descs : List AggregateDesc) (rows : List RowData) :
    Option Bytes → Prop
  | none => rows = []
  | some value => rows ≠ [] ∧
      ∃ arr, AggregateDesc.fromLowData value = some arr ∧ ArrayHolds colType descs arr rows

def LevelSpec (colType : Bytes → FieldType) (descs : List AggregateDesc) (keys : LdbKeys)
    (history : List RowData) (st : CumulativeDb keys.timeKeyLen) (level step : Nat) : Prop :=
  ∀ row T, T < 256 ^ keys.timeKeyLen →
    BucketSpec colType descs (rowsOf keys row (inBucket step T) history)
      ((st.storeAt level).get (bucketKey keys.timeKeyLen row level T))

section Stores

variable {timeLen : Nat} {st : CumulativeDb timeLen}

theorem bucketKey_length (row : Bytes) (level T : Nat) :
    timeLen ≤ (bucketKey timeLen row level T).length := by
  simp [bucketKey]
  omega

theorem ldbRank_bucketKey {row : Bytes} {level T : Nat} (hT : T < 256 ^ timeLen) :
    ldbRank timeLen (bucketKey timeLen row level T) =
      toLex (rowRank (row ++ [levelByte level]), T) := by
  have happ : bucketKey timeLen row level T = row ++ [levelByte level] ++ leBytes timeLen T := by
    simp [bucketKey]
  rw [happ, ldbRank_append (leBytes_length _ _), leNat_leBytes_of_lt hT]

theorem levelByte_injective {i j : Nat} (hi : i < 256) (hj : j < 256)
    (h : levelByte i = levelByte j) : i = j := by
  have hnat := congrArg UInt8.toNat h
  unfold levelByte at hnat
  rw [UInt8.toNat_sub, UInt8.toNat_sub, UInt8.toNat_ofNat', UInt8.toNat_ofNat'] at hnat
  have h255 : (255 : UInt8).toNat = 255 := rfl
  rw [h255] at hnat
  omega

theorem bucketKey_rank_inj {row row' : Bytes} {level level' T T' : Nat} (hlevel : level < 256)
    (hlevel' : level' < 256) (hT : T < 256 ^ timeLen) (hT' : T' < 256 ^ timeLen)
    (h : ldbRank timeLen (bucketKey timeLen row level T) =
      ldbRank timeLen (bucketKey timeLen row' level' T')) :
    row = row' ∧ level = level' ∧ T = T' := by
  rw [ldbRank_bucketKey hT, ldbRank_bucketKey hT', toLex_inj, Prod.mk.injEq] at h
  obtain ⟨hrow, htime⟩ := h
  obtain ⟨hrow, hbyte⟩ := append_inj' (rowRank_injective hrow) rfl
  exact ⟨hrow, levelByte_injective hlevel hlevel' (List.cons.inj hbyte).1, htime⟩

theorem get_putAt_same (level : Nat) (key value key' : Bytes) :
    ((st.putAt level key value).storeAt level).get key' =
      if ldbRank timeLen key' = ldbRank timeLen key then some value
      else (st.storeAt level).get key' := by
  unfold CumulativeDb.putAt CumulativeDb.storeAt
  by_cases h : level = 0
  · simp [h, OrderedStore.get_put]
  · simp [h, OrderedStore.get_put]

theorem get_putAt_other (level level' : Nat) {key value key' : Bytes}
    (hne : ldbRank timeLen key' ≠ ldbRank timeLen key) :
    ((st.putAt level key value).storeAt level').get key' = (st.storeAt level').get key' := by
  unfold CumulativeDb.putAt CumulativeDb.storeAt
  by_cases h : level = 0
  · by_cases h' : level' = 0 <;> simp [h, h', OrderedStore.get_put, hne]
  · by_cases h' : level' = 0 <;> simp [h, h', OrderedStore.get_put, hne]

end Stores

/-! ## §4. Inserts keep the buckets. -/

section Rows

variable {keys : LdbKeys} {row : Bytes} {test : Nat → Bool} {rdata : RowData} {k : Bytes} {t : Nat}

theorem ofKey_eq (h : rowTime keys rdata = some (k, t)) :
    ofKey keys row test rdata = (k = row && test t) := by
  simp [ofKey, h]

theorem ofKey_eq_true :
    ofKey keys row test rdata = true ↔ ∃ t, rowTime keys rdata = some (row, t) ∧ test t = true := by
  unfold ofKey
  cases rowTime keys rdata with
  | none => simp
  | some kt =>
    obtain ⟨k, t⟩ := kt
    simp only [Option.any_some, Bool.and_eq_true, decide_eq_true_eq, Option.some.injEq,
      Prod.mk.injEq]
    constructor
    · rintro ⟨rfl, htest⟩
      exact ⟨t, ⟨rfl, rfl⟩, htest⟩
    · rintro ⟨t', ⟨rfl, rfl⟩, htest⟩
      exact ⟨rfl, htest⟩

theorem rowsOf_append (history : List RowData) (rdata : RowData) :
    rowsOf keys row test (history ++ [rdata]) =
      if ofKey keys row test rdata then rowsOf keys row test history ++ [rdata]
      else rowsOf keys row test history := by
  unfold rowsOf
  rw [filter_append]
  split_ifs with h <;> simp [h]

end Rows

section Insert

variable {funcs : AggrFunc.OtherFuncs} {table : CumulativeTable} {colType : Bytes → FieldType}
  {history : List RowData} {rdata : RowData} {row : Bytes} {time : Nat} {new : List AggregateDesc}
  {level step : Nat} {st st' : CumulativeDb table.keys.timeKeyLen} {all : List RowData}

theorem timeSize_le (table : CumulativeTable) : 256 ^ table.keys.timeKeyLen ≤ 2 ^ 64 := by
  rcases table.timeLen with h | h <;> rw [h] <;> norm_num

section Level

variable (hT : roundUp step time < 256 ^ table.keys.timeKeyLen)
  (h : insertLevel funcs row time new level step st = some st')

include hT h

/-- A bucket is created, or the row is merged into it. -/
theorem insertLevel_cases :
    ∃ value, st' = st.putAt level (bucketKey table.keys.timeKeyLen row level (roundUp step time))
        (AggregateDesc.toLowData value) ∧
      match (st.storeAt level).get
        (bucketKey table.keys.timeKeyLen row level (roundUp step time)) with
      | none => value = new
      | some old => ∃ queried, AggregateDesc.fromLowData old = some queried ∧
          AggregateDesc.merge funcs queried new = some value := by
  have hround : (if time % step ≠ 0 then (time - time % step + step) % 2 ^ 64 else time) =
      roundUp step time := by
    have hsize := timeSize_le table
    unfold roundUp at hT ⊢
    by_cases hrem : time % step = 0
    · simp [hrem]
    · rw [if_neg hrem] at hT ⊢
      rw [if_pos hrem, Nat.mod_eq_of_lt (lt_of_lt_of_le hT hsize)]
  unfold insertLevel at h
  simp only [hround] at h
  cases hget : (st.storeAt level).get
      (bucketKey table.keys.timeKeyLen row level (roundUp step time)) with
  | none =>
    simp only [hget] at h
    exact ⟨new, (Option.some.inj h).symm, rfl⟩
  | some old =>
    simp only [hget] at h
    obtain ⟨queried, hread, h⟩ := Option.bind_eq_some_iff.mp h
    obtain ⟨value, hmerge, h⟩ := Option.bind_eq_some_iff.mp h
    exact ⟨value, (Option.some.inj h).symm, queried, hread, hmerge⟩

/-- The level that gets the row. -/
theorem LevelSpec.insertLevel_same (hcols : IntegerColumns colType table.descs all)
    (hrow : rowTime table.keys rdata = some (row, time))
    (hnew : ArrayHolds colType table.descs new [rdata]) (hlevel : level < 256)
    (hspec : LevelSpec colType table.descs table.keys history st level step) :
    LevelSpec colType table.descs table.keys (history ++ [rdata]) st' level step := by
  obtain ⟨value, rfl, hvalue⟩ := insertLevel_cases hT h
  intro row' T hT'
  rw [get_putAt_same, rowsOf_append, ofKey_eq hrow]
  by_cases hbucket : row = row' ∧ roundUp step time = T
  · -- the bucket of the row
    obtain ⟨rfl, rfl⟩ := hbucket
    rw [if_pos rfl, if_pos (by simp [inBucket])]
    have hold := hspec row (roundUp step time) hT
    have hholds : ArrayHolds colType table.descs value
        (rowsOf table.keys row (inBucket step (roundUp step time)) history ++ [rdata]) := by
      cases hget : (st.storeAt level).get
        (bucketKey table.keys.timeKeyLen row level (roundUp step time)) with
      | none =>
        rw [hget] at hvalue hold
        rw [hvalue, show rowsOf _ _ _ _ = _ from hold]
        exact hnew
      | some old =>
        rw [hget] at hvalue hold
        obtain ⟨queried, hread, hmerge⟩ := hvalue
        obtain ⟨-, arr, harr, hholds⟩ := hold
        cases hread.symm.trans harr
        exact hholds.merge hcols table.descs_sorted hnew hmerge
    have hsize : value.length < 2 ^ 32 := by
      rw [← length_map AggregateDesc.key, hholds.keys, length_map]
      exact table.descs_size
    exact ⟨by simp, _, AggregateDesc.fromLowData_toLowData hholds.fits hsize, hholds.unnamed⟩
  · -- the row is of another bucket
    have hne : ldbRank table.keys.timeKeyLen (bucketKey table.keys.timeKeyLen row' level T) ≠
        ldbRank table.keys.timeKeyLen
          (bucketKey table.keys.timeKeyLen row level (roundUp step time)) := by
      intro heq
      obtain ⟨hr, -, ht⟩ := bucketKey_rank_inj hlevel hlevel hT' hT heq
      exact hbucket ⟨hr.symm, ht.symm⟩
    rw [if_neg hne, if_neg (by simpa [inBucket] using hbucket)]
    exact hspec row' T hT'

theorem LevelSpec.insertLevel_other {level' step' : Nat} (hlevel : level < 256)
    (hlevel' : level' < 256) (hne : level' ≠ level)
    (hspec : LevelSpec colType table.descs table.keys history st level' step') :
    LevelSpec colType table.descs table.keys history st' level' step' := by
  obtain ⟨value, rfl, -⟩ := insertLevel_cases hT h
  intro row' T hT'
  rw [get_putAt_other]
  · exact hspec row' T hT'
  · intro heq
    exact hne (bucketKey_rank_inj hlevel' hlevel hT' hT heq).2.1

theorem insertLevel_timed (htimed : ∀ level, (st.storeAt level).Timed) :
    ∀ level, (st'.storeAt level).Timed := by
  obtain ⟨value, rfl, -⟩ := insertLevel_cases hT h
  have hput : ∀ db : LevelDb table.keys.timeKeyLen, db.Timed →
      LevelDb.Timed (db.put (bucketKey table.keys.timeKeyLen row level (roundUp step time))
        (AggregateDesc.toLowData value)) := by
    intro db hdb e he
    rcases (OrderedStore.mem_put db).mp he with rfl | ⟨he, -⟩
    · exact bucketKey_length row level _
    · exact hdb e he
  intro level'
  have h0 := htimed 0
  have h1 := htimed 1
  unfold CumulativeDb.putAt
  by_cases hlevel : level = 0
  · rw [if_pos hlevel]
    by_cases hlevel' : level' = 0
    · rw [hlevel']
      exact hput _ h0
    · simpa [CumulativeDb.storeAt, hlevel'] using h1
  · rw [if_neg hlevel]
    by_cases hlevel' : level' = 0
    · simpa [CumulativeDb.storeAt, hlevel'] using h0
    · simpa [CumulativeDb.storeAt, hlevel'] using hput _ h1

end Level

/-- What the stores hold after some inserts. -/
structure Indexed (colType : Bytes → FieldType) (table : CumulativeTable) (history : List RowData)
    (st : CumulativeDb table.keys.timeKeyLen) : Prop where
  timed : ∀ level, (st.storeAt level).Timed
  levels : ∀ level step, table.steps[level]? = some step →
    LevelSpec colType table.descs table.keys history st level step

/-- **The loop over the levels.**  The levels from `level` on get the row, those
before keep what they have. -/
theorem insertLevels_spec (hcols : IntegerColumns colType table.descs all)
    (hrow : rowTime table.keys rdata = some (row, time))
    (hnew : ArrayHolds colType table.descs new [rdata]) {steps : List Nat}
    (hlevel : level + steps.length ≤ 256)
    (hT : ∀ s ∈ steps, roundUp s time < 256 ^ table.keys.timeKeyLen)
    (htimed : ∀ level, (st.storeAt level).Timed)
    (hspec : ∀ i s, steps[i]? = some s →
      LevelSpec colType table.descs table.keys history st (level + i) s)
    (h : insertLevels funcs row time new level steps st = some st') :
    (∀ level, (st'.storeAt level).Timed) ∧
    (∀ i s, steps[i]? = some s →
      LevelSpec colType table.descs table.keys (history ++ [rdata]) st' (level + i) s) ∧
    ∀ level' < level, ∀ history' s, LevelSpec colType table.descs table.keys history' st level' s →
        LevelSpec colType table.descs table.keys history' st' level' s := by
  induction steps generalizing level st with
  | nil =>
    cases h
    exact ⟨htimed, fun i s hs => by simp at hs, fun _ _ _ _ hs => hs⟩
  | cons step steps ih =>
    rw [length_cons] at hlevel
    obtain ⟨hThead, hTtail⟩ := forall_mem_cons.mp hT
    obtain ⟨st₁, h₁, h⟩ := Option.bind_eq_some_iff.mp h
    have hrest : ∀ i s, steps[i]? = some s →
        LevelSpec colType table.descs table.keys history st₁ (level + 1 + i) s := by
      intro i s hs
      have hi := (List.getElem?_eq_some_iff.mp hs).1
      refine LevelSpec.insertLevel_other hThead h₁ (by omega) (by omega) (by omega) ?_
      rw [show level + 1 + i = level + (i + 1) by omega]
      exact hspec (i + 1) s hs
    obtain ⟨htimed', hnext, hbefore⟩ := ih (by omega) hTtail
      (insertLevel_timed hThead h₁ htimed) hrest h
    refine ⟨htimed', ?_, ?_⟩
    · intro i s hs
      cases i with
      | zero =>
        cases hs
        refine hbefore level (by omega) _ _ ?_
        exact LevelSpec.insertLevel_same hThead h₁ hcols hrow hnew (by omega) (hspec 0 _ rfl)
      | succ i =>
        rw [show level + (i + 1) = level + 1 + i by omega]
        exact hnext i s hs
    · intro level' hlt history' s hs
      refine hbefore level' (by omega) _ _ ?_
      exact LevelSpec.insertLevel_other hThead h₁ (by omega) (by omega) (by omega) hs

theorem two_pow_le_step {steps : List Nat} (hpos : ∀ s ∈ steps, 0 < s)
    (hchain : steps.IsChain fun a b => a < b ∧ a ∣ b) {i : Nat} (hi : i < steps.length) :
    2 ^ i ≤ steps[i] := by
  induction i with
  | zero => exact hpos _ (getElem_mem hi)
  | succ i ih =>
    obtain ⟨hlt, hdvd⟩ := isChain_iff_getElem.mp hchain i hi
    have hdouble := add_le_of_dvd (Nat.dvd_refl _) hdvd hlt
    have hprev := ih (by omega)
    rw [pow_succ]
    omega

theorem steps_length_le (table : CumulativeTable) : table.steps.length ≤ 64 := by
  by_contra hlong
  have hlt : 64 < table.steps.length := by omega
  have hle := two_pow_le_step table.steps_pos table.steps_chain hlt
  have hstep := table.steps_lt _ (getElem_mem hlt)
  omega

def RoundsUp (table : CumulativeTable) (rdata : RowData) : Prop :=
  ∀ row t, rowTime table.keys rdata = some (row, t) →
    ∀ s ∈ table.steps, roundUp s t < 256 ^ table.keys.timeKeyLen

/-- The step lemma of the inserts. -/
theorem Indexed.insert (hcols : IntegerColumns colType table.descs all)
    (hnames : ∀ d ∈ table.descs, d.name.length < 256) (hmem : rdata ∈ all)
    (hround : RoundsUp table rdata) (hindexed : Indexed colType table history st)
    (h : cumulativeInsert funcs table rdata st = some st') :
    Indexed colType table (history ++ [rdata]) st' := by
  unfold cumulativeInsert at h
  obtain ⟨⟨row, time?⟩, hkey, h⟩ := Option.bind_eq_some_iff.mp h
  obtain ⟨time, htime, h⟩ := Option.bind_eq_some_iff.mp h
  obtain ⟨new, hnew, h⟩ := Option.bind_eq_some_iff.mp h
  have hrow : rowTime table.keys rdata = some (row.data, leNat time.data) := by
    have htime : time? = some time := htime
    simp [rowTime, hkey, htime]
  have hlevels := steps_length_le table
  have harr := arrayHolds_row table.descs_empty hnames hcols hmem hnew
  obtain ⟨htimed, hnext, -⟩ := insertLevels_spec hcols hrow harr (by omega) (hround _ _ hrow)
    hindexed.timed (fun i s hs => by rw [Nat.zero_add]; exact hindexed.levels i s hs) h
  refine ⟨htimed, fun level step hstep => ?_⟩
  have hspec := hnext level step hstep
  rwa [Nat.zero_add] at hspec

def insertAll (funcs : AggrFunc.OtherFuncs) (table : CumulativeTable) (history : List RowData) :
    Option (CumulativeDb table.keys.timeKeyLen) :=
  history.foldlM (fun st rdata => cumulativeInsert funcs table rdata st) .empty

theorem indexed_empty : Indexed colType table [] .empty where
  timed := by
    intro level e he
    simp [CumulativeDb.storeAt, CumulativeDb.empty] at he
  levels := by
    intro level step _ row T _
    have hget : ((CumulativeDb.empty : CumulativeDb table.keys.timeKeyLen).storeAt level).get
        (bucketKey table.keys.timeKeyLen row level T) = none := by
      simp [CumulativeDb.storeAt, CumulativeDb.empty, OrderedStore.get]
    rw [hget]
    rfl

/-- **After every sequence of inserts the buckets hold the inserted rows.** -/
theorem indexed_insertAll (hcols : IntegerColumns colType table.descs all)
    (hall : ∀ rdata ∈ history, rdata ∈ all) (hnames : ∀ d ∈ table.descs, d.name.length < 256)
    (hround : ∀ rdata ∈ history, RoundsUp table rdata)
    (h : insertAll funcs table history = some st) : Indexed colType table history st := by
  induction history using List.reverseRecOn generalizing st with
  | nil =>
    cases h
    exact indexed_empty
  | append_singleton history rdata ih =>
    rw [insertAll, foldlM_append] at h
    obtain ⟨st₁, hbefore, hinsert⟩ := Option.bind_eq_some_iff.mp h
    obtain ⟨hall, hmem⟩ := forall_mem_append.mp hall
    obtain ⟨hround, hlast⟩ := forall_mem_append.mp hround
    simp only [foldlM_cons, foldlM_nil, bind_pure] at hinsert
    exact (ih hall hround hbefore).insert hcols hnames (hmem rdata mem_cons_self)
      (hlast rdata mem_cons_self) hinsert

end Insert

end Mile.Ldb
