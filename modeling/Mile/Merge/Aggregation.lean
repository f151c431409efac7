/-
  Mile.Merge.Aggregation
  ──────────────────────
  **GROUPS OF ALL NODES** (`plan/GroupStep.java` over `execute/GroupRS.cpp`).

  A query is aggregated twice: by `GroupRS` over the rows of each node, and by `GroupStep` over
  the records the nodes answer with.  What stands in a column of a record is said by the rows it
  is made of (`CellHolds`).
-/
import Mile.Merge.Plan
import Mile.Execute.GroupRS
import Mile.Lib.Outcomes

namespace Mile.Merge

open Lib Common DocDb Execute List

/-! ## §1. Values carried unchanged. -/

def javaValue (d : LowData) : Option Value :=
  match d.type with
  | .null => some .null
  | .tiny => some (.byte (Int8.ofInt (signedAt 1 d.data)))
  | .short => some (.short (Int16.ofInt (signedAt 2 d.data)))
  | .long => some (.integer (Int32.ofInt (signedAt 4 d.data)))
  | .longlong => some (.long (Int64.ofInt (signedAt 8 d.data)))
  | _ => none

def carriedData (d : LowData) : Option Cell :=
  if d.IsNull then some .null else (javaValue d).map .value

/-- A column of a row of `GroupRS` in a message.  A set without elements is NULL too. -/
def carried : AggCell → Option Cell
  | .data d => carriedData d
  | .set [] => some .null
  | .set (e :: es) => ((e :: es).mapM javaValue).map fun values => .set values.toFinset

def IntegerOrNull (t : FieldType) (d : LowData) : Prop :=
  d.type = .null ∨ d.type = t ∧ d.len = t.unitSize

variable {c : JavaClass} {t : FieldType} {d e : LowData}

theorem signedAt_range {w : Nat} (hw : 0 < w) (data : Bytes) :
    -2 ^ (8 * w - 1) ≤ signedAt w data ∧ signedAt w data < 2 ^ (8 * w - 1) := by
  have hlt : leAt data 0 w < 2 ^ (8 * w) := by
    have hle : (data.take w).length ≤ w := length_take_le w data
    rw [leAt, drop_zero, pow_mul]
    exact (leNat_lt _).trans_le (Nat.pow_le_pow_right (by decide) hle)
  have hpow : (2 : Nat) ^ (8 * w) = 2 * 2 ^ (8 * w - 1) := by
    rw [← pow_succ', Nat.sub_add_cancel (by omega)]
  rw [signedAt, toSigned]
  have hcast : ((2 : Int) ^ (8 * w - 1)) = ((2 ^ (8 * w - 1) : Nat) : Int) := by push_cast; rfl
  have hcast' : ((2 : Int) ^ (8 * w)) = ((2 ^ (8 * w) : Nat) : Int) := by push_cast; rfl
  rw [hcast, hcast', hpow]
  split_ifs <;> push_cast <;> omega

theorem integerType_signed (hc : c.integerType = some t) : t.IsInteger ∧ 0 < t.unitSize := by
  cases c <;> simp only [JavaClass.integerType, Option.some.injEq, reduceCtorEq] at hc <;>
    subst hc <;> decide

theorem javaValue_integer (hc : c.integerType = some t) (hd : d.type = t) :
    ∃ v, javaValue d = some v ∧ v.comparable = some c ∧ v.place = [integerAt t d.data] := by
  cases c <;> simp only [JavaClass.integerType, Option.some.injEq, reduceCtorEq] at hc <;>
    subst hc <;> simp only [javaValue, hd]
  case byte =>
    obtain ⟨hlow, hhigh⟩ := signedAt_range (w := 1) (by decide) d.data
    exact ⟨_, rfl, rfl, congrArg (fun n => [n]) (Int8.toInt_ofInt_of_le hlow hhigh)⟩
  case short =>
    obtain ⟨hlow, hhigh⟩ := signedAt_range (w := 2) (by decide) d.data
    exact ⟨_, rfl, rfl, congrArg (fun n => [n]) (Int16.toInt_ofInt_of_le hlow hhigh)⟩
  case integer =>
    obtain ⟨hlow, hhigh⟩ := signedAt_range (w := 4) (by decide) d.data
    exact ⟨_, rfl, rfl, congrArg (fun n => [n]) (Int32.toInt_ofInt_of_le hlow hhigh)⟩
  case long =>
    obtain ⟨hlow, hhigh⟩ := signedAt_range (w := 8) (by decide) d.data
    exact ⟨_, rfl, rfl, congrArg (fun n => [n]) (Int64.toInt_ofInt_of_le hlow hhigh)⟩

theorem javaValue_congr (htype : d.type = e.type) (hdata : d.data = e.data) :
    javaValue d = javaValue e := by
  rw [javaValue, javaValue, htype, hdata]

theorem IntegerOrNull.not_null (hc : c.integerType = some t) (h : IntegerOrNull t d)
    (hd : d.type ≠ .null) : d.type = t ∧ ¬d.IsNull := by
  obtain ⟨htype, hlen⟩ := h.resolve_left hd
  refine ⟨htype, ?_⟩
  rintro (hnull | hzero)
  · exact hd hnull
  · have := (integerType_signed hc).2
    omega

theorem IntegerOrNull.ofColumn (h : IntegerOrNull t d) : AggrFunc.OfColumn t d := h.imp id And.left

theorem carriedData_null (h : d.IsNull) : carriedData d = some .null := if_pos h

theorem carriedData_value {v : Value} (h : ¬d.IsNull) (hv : javaValue d = some v) :
    carriedData d = some (.value v) := by
  rw [carriedData, if_neg h, hv]
  rfl

theorem IntegerOrNull.carried (hc : c.integerType = some t) (h : IntegerOrNull t d) :
    ∃ cell, carriedData d = some cell := by
  by_cases hd : d.type = .null
  · exact ⟨_, carriedData_null (.inl hd)⟩
  · obtain ⟨htype, hnull⟩ := h.not_null hc hd
    obtain ⟨v, hv, -⟩ := javaValue_integer hc htype
    exact ⟨_, carriedData_value hnull hv⟩

/-! ## §2. What a column of a record is made of. -/

def objects (vals : List LowData) : List Value :=
  (vals.filter fun d => ¬d.IsNull).filterMap javaValue

def ExtremeCell (before : List Int → List Int → Prop) (values : List Value) (cell : Cell) : Prop :=
  values = [] ∧ cell = .null ∨
    ∃ v ∈ values, cell = .value v ∧ ∀ w ∈ values, before v.place w.place

def distinctCell (values : List Value) : Cell :=
  if values = [] then .null else .set values.toFinset

/-- The column of a function, before `GroupStep` is done with it. -/
def CellHolds (f : FunctionType) (vals : List LowData) (cell : Cell) : Prop :=
  match f with
  | .count => cell = if vals = [] then .null else .value (.long (Int64.ofNat vals.length))
  | .max => ExtremeCell (· ≥ ·) (objects vals) cell
  | .min => ExtremeCell (· ≤ ·) (objects vals) cell
  | .countDistinct => cell = distinctCell (objects vals)
  | _ => False

section Cells

variable {f : FunctionType} {vals vals' : List LowData} {values values' : List Value}
  {cell cell' : Cell} {before : List Int → List Int → Prop}

theorem objects_append : objects (vals ++ vals') = objects vals ++ objects vals' := by
  rw [objects, filter_append, filterMap_append]
  rfl

theorem objects_perm (h : vals.Perm vals') : (objects vals).Perm (objects vals') :=
  (h.filter _).filterMap _

theorem mem_objects {v : Value} :
    v ∈ objects vals ↔ ∃ d ∈ vals, ¬d.IsNull ∧ javaValue d = some v := by
  rw [objects, mem_filterMap]
  simp only [mem_filter, decide_eq_true_eq, and_assoc]

def OfClass (c : JavaClass) (values : List Value) : Prop := ∀ v ∈ values, v.comparable = some c

theorem objects_ofClass (hc : c.integerType = some t) (h : ∀ d ∈ vals, IntegerOrNull t d) :
    OfClass c (objects vals) := by
  intro v hv
  obtain ⟨d, hd, hnull, hjava⟩ := mem_objects.mp hv
  have htype : d.type = t := ((h d hd).resolve_left fun hn => hnull (.inl hn)).1
  obtain ⟨w, hw, hclass, -⟩ := javaValue_integer hc htype
  obtain rfl := Option.some.inj (hjava.symm.trans hw)
  exact hclass

theorem OfClass.ne_null (h : OfClass c values) {v : Value} (hv : v ∈ values) :
    Cell.value v ≠ .null := by
  intro heq
  have hclass := h v hv
  rw [Cell.value.inj heq] at hclass
  cases hclass

/-- The extreme of two nodes. -/
theorem ExtremeCell.merge {test : Int → Bool} (hv : OfClass c values) (hw : OfClass c values')
    (htake : ∀ a b : List Int, test (comp a b) = true → before b a)
    (hkeep : ∀ a b : List Int, test (comp a b) = false → before a b)
    (htrans : ∀ a b d : List Int, before a b → before b d → before a d)
    (h : ExtremeCell before values cell) (h' : ExtremeCell before values' cell') :
    ∃ merged, mergePick test cell cell' = .ok merged ∧
      ExtremeCell before (values ++ values') merged := by
  rcases h with ⟨rfl, rfl⟩ | ⟨v, hmem, rfl, hall⟩
  · exact ⟨cell', if_pos rfl, h'⟩
  have hnull := hv.ne_null hmem
  rcases h' with ⟨rfl, rfl⟩ | ⟨w, hmem', rfl, hall'⟩
  · refine ⟨.value v, ?_, ?_⟩
    · rw [mergePick, if_neg hnull, if_pos rfl]
    · rw [append_nil]
      exact .inr ⟨v, hmem, rfl, hall⟩
  have hnull' := hw.ne_null hmem'
  have hclass : (v.comparable.isSome && w.comparable.isSome) = true := by
    rw [hv v hmem, hw w hmem']
    rfl
  have hrun : mergePick test (.value v) (.value w) =
      .ok (if test (comp v.place w.place) = true then .value w else .value v) := by
    simp only [mergePick, if_neg hnull, if_neg hnull', hclass, if_true,
      Value.compareTo_eq (hv v hmem) (hw w hmem'), bind, Except.bind, pure, Except.pure]
  refine ⟨_, hrun, ?_⟩
  by_cases htest : test (comp v.place w.place) = true
  · rw [if_pos htest]
    refine .inr ⟨w, mem_append_right _ hmem', rfl, ?_⟩
    refine forall_mem_append.mpr ⟨fun u hu => ?_, hall'⟩
    exact htrans _ _ _ (htake _ _ htest) (hall u hu)
  · rw [if_neg htest]
    refine .inr ⟨v, mem_append_left _ hmem, rfl, ?_⟩
    refine forall_mem_append.mpr ⟨hall, fun u hu => ?_⟩
    exact htrans _ _ _ (hkeep _ _ (Bool.eq_false_iff.mpr htest)) (hall' u hu)

theorem extremeCell_max (hv : OfClass c values) (hw : OfClass c values')
    (h : ExtremeCell (· ≥ ·) values cell) (h' : ExtremeCell (· ≥ ·) values' cell') :
    ∃ merged, mergeMax cell cell' = .ok merged ∧
      ExtremeCell (· ≥ ·) (values ++ values') merged := by
  refine ExtremeCell.merge hv hw ?_ ?_ (fun a b d hab hbd => le_trans hbd hab) h h'
  · intro a b htest
    exact (comp_neg_iff.mp (of_decide_eq_true htest)).le
  · intro a b htest
    exact not_lt.mp fun hlt => of_decide_eq_false htest (comp_neg_iff.mpr hlt)

theorem extremeCell_min (hv : OfClass c values) (hw : OfClass c values')
    (h : ExtremeCell (· ≤ ·) values cell) (h' : ExtremeCell (· ≤ ·) values' cell') :
    ∃ merged, mergeMin cell cell' = .ok merged ∧
      ExtremeCell (· ≤ ·) (values ++ values') merged := by
  refine ExtremeCell.merge hv hw ?_ ?_ (fun a b d hab hbd => le_trans hab hbd) h h'
  · intro a b htest
    have hnot : ¬comp a b < 0 := by simpa using htest
    exact not_lt.mp fun hlt => hnot (comp_neg_iff.mpr hlt)
  · intro a b htest
    have hneg : comp a b < 0 := by simpa using htest
    exact (comp_neg_iff.mp hneg).le

theorem ExtremeCell.unique (hv : OfClass c values) (hperm : values.Perm values')
    (hanti : ∀ a b : List Int, before a b → before b a → a = b)
    (h : ExtremeCell before values cell) (h' : ExtremeCell before values' cell') :
    cell = cell' := by
  rcases h with ⟨rfl, rfl⟩ | ⟨v, hmem, rfl, hall⟩
  · rcases h' with ⟨-, rfl⟩ | ⟨w, hmem', -⟩
    · rfl
    · exact absurd (hperm.mem_iff.mpr hmem') not_mem_nil
  rcases h' with ⟨rfl, -⟩ | ⟨w, hmem', rfl, hall'⟩
  · exact absurd (hperm.mem_iff.mp hmem) not_mem_nil
  have hw : w ∈ values := hperm.mem_iff.mpr hmem'
  have hplace : v.place = w.place := hanti _ _ (hall w hw) (hall' v (hperm.mem_iff.mp hmem))
  rw [Value.place_injective (hv v hmem) (hv w hw) hplace]

theorem distinctCell_merge :
    mergeCountDistinct (distinctCell values) (distinctCell values') =
      .ok (distinctCell (values ++ values')) := by
  by_cases hv : values = []
  · subst hv
    rfl
  by_cases hw : values' = []
  · subst hw
    rw [append_nil, distinctCell, if_neg hv]
    rfl
  have happend : values ++ values' ≠ [] := by simp [hv]
  rw [distinctCell, distinctCell, distinctCell, if_neg hv, if_neg hw, if_neg happend,
    toFinset_append]
  rfl

/-- Counts are added. -/
theorem count_merge :
    mergeCount (if vals = [] then .null else .value (.long (Int64.ofNat vals.length)))
        (if vals' = [] then .null else .value (.long (Int64.ofNat vals'.length))) =
      .ok (if vals ++ vals' = [] then .null
        else .value (.long (Int64.ofNat (vals ++ vals').length))) := by
  by_cases hv : vals = []
  · subst hv
    rfl
  by_cases hw : vals' = []
  · subst hw
    rw [if_neg hv, append_nil, if_neg hv]
    rfl
  have happend : vals ++ vals' ≠ [] := by simp [hv]
  rw [if_neg hv, if_neg hw, if_neg happend, length_append, Int64.ofNat_add]
  rfl

/-- **Two columns of one function merge into the column of all their values.** -/
theorem CellHolds.merge (doubles : DoubleFuncs) (hc : c.integerType = some t)
    (hvals : f ≠ .count → ∀ d ∈ vals ++ vals', IntegerOrNull t d)
    (h : CellHolds f vals cell) (h' : CellHolds f vals' cell') :
    ∃ merged, mergeFunction doubles (some f) cell cell' = .ok merged ∧
      CellHolds f (vals ++ vals') merged := by
  have hclass : f ≠ .count → OfClass c (objects vals) ∧ OfClass c (objects vals') := fun hf =>
    have hboth := forall_mem_append.mp (hvals hf)
    ⟨objects_ofClass hc hboth.1, objects_ofClass hc hboth.2⟩
  cases f
  case count =>
    obtain rfl : cell = _ := h
    obtain rfl : cell' = _ := h'
    exact ⟨_, count_merge, rfl⟩
  case max =>
    obtain ⟨hv, hw⟩ := hclass (by decide)
    show ∃ merged, mergeMax cell cell' = .ok merged ∧ ExtremeCell (· ≥ ·) (objects _) merged
    rw [objects_append]
    exact extremeCell_max hv hw h h'
  case min =>
    obtain ⟨hv, hw⟩ := hclass (by decide)
    show ∃ merged, mergeMin cell cell' = .ok merged ∧ ExtremeCell (· ≤ ·) (objects _) merged
    rw [objects_append]
    exact extremeCell_min hv hw h h'
  case countDistinct =>
    obtain rfl : cell = _ := h
    obtain rfl : cell' = _ := h'
    refine ⟨_, distinctCell_merge, ?_⟩
    show _ = distinctCell (objects (vals ++ vals'))
    rw [objects_append]
  all_goals exact absurd h id

/-- The cell depends on the values only. -/
theorem CellHolds.unique (hc : c.integerType = some t)
    (hvals : f ≠ .count → ∀ d ∈ vals, IntegerOrNull t d) (hperm : vals.Perm vals')
    (h : CellHolds f vals cell) (h' : CellHolds f vals' cell') : cell = cell' := by
  cases f
  case count =>
    obtain rfl : cell = _ := h
    obtain rfl : cell' = _ := h'
    have hnil : vals = [] ↔ vals' = [] :=
      ⟨fun hv => (hv ▸ hperm).nil_eq.symm, fun hv => (hv ▸ hperm).eq_nil⟩
    rw [hperm.length_eq]
    simp only [hnil]
  case max =>
    exact ExtremeCell.unique (objects_ofClass hc (hvals (by decide))) (objects_perm hperm)
      (fun a b hab hba => le_antisymm hba hab) h h'
  case min =>
    exact ExtremeCell.unique (objects_ofClass hc (hvals (by decide))) (objects_perm hperm)
      (fun a b hab hba => le_antisymm hab hba) h h'
  case countDistinct =>
    obtain rfl : cell = _ := h
    obtain rfl : cell' = _ := h'
    have hobjects := objects_perm hperm
    have hnil : objects vals = [] ↔ objects vals' = [] :=
      ⟨fun hv => (hv ▸ hobjects).nil_eq.symm, fun hv => (hv ▸ hobjects).eq_nil⟩
    simp only [distinctCell, hnil, toFinset_eq_of_perm _ _ hobjects]
  all_goals exact absurd h id

theorem CellHolds.finish (doubles : DoubleFuncs) (h : CellHolds f vals cell) :
    ∃ done, finishFunction doubles (some f) cell = .ok done := by
  cases f
  case count | max | min => exact ⟨_, rfl⟩
  case countDistinct =>
    obtain rfl : cell = distinctCell (objects vals) := h
    unfold distinctCell
    split_ifs
    · exact ⟨_, rfl⟩
    · exact ⟨_, rfl⟩
  all_goals exact absurd h id

end Cells

/-! ## §3. The columns of a node. -/

section Node

variable {funcs : AggrFunc.OtherFuncs} {f : FunctionType} {vals elements : List LowData}

theorem orderKey_integer (hc : c.integerType = some t) (hnull : ¬d.IsNull) {v : Value}
    (hd : d.type = t) (hv : javaValue d = some v) : orderKey t d.data = v.place := by
  obtain ⟨w, hw, -, hplace⟩ := javaValue_integer hc hd
  obtain rfl := Option.some.inj (hv.symm.trans hw)
  have hdata : d.data ≠ [] := by
    intro hnil
    exact hnull (.inr (by rw [LowData.len, hnil]; rfl))
  rw [orderKey, if_pos (integerType_signed hc).1, if_neg hdata, hplace]

/-- MIN and MAX on the way to the mergeserver. -/
theorem foremost_carried {before : List Int → List Int → Prop} {v : LowData}
    (hc : c.integerType = some t) (hvals : ∀ d ∈ vals, IntegerOrNull t d)
    (h : Foremost t before v vals) :
    ∃ cell, carriedData v = some cell ∧ ExtremeCell before (objects vals) cell := by
  rcases h with ⟨hnull, -, hall⟩ | ⟨hnull, htype, ⟨w, hw, hwt, hwv⟩, hall⟩
  · refine ⟨.null, carriedData_null hnull, .inl ⟨?_, rfl⟩⟩
    refine eq_nil_iff_forall_not_mem.mpr fun x hx => ?_
    obtain ⟨d, hd, hne, -⟩ := mem_objects.mp hx
    exact hne (hall d hd)
  · obtain ⟨x, hx, -⟩ := javaValue_integer hc htype
    have hwnull : ¬w.IsNull := by
      rintro (hn | hl)
      · exact hnull (.inl (htype.trans (hwt.symm.trans hn)))
      · exact hnull (.inr (by rw [LowData.len, ← hwv]; exact hl))
    have hwx : javaValue w = some x := (javaValue_congr (hwt.trans htype.symm) hwv).trans hx
    refine ⟨.value x, carriedData_value hnull hx, .inr ⟨x, mem_objects.mpr ⟨w, hw, hwnull, hwx⟩,
      rfl, ?_⟩⟩
    intro y hy
    obtain ⟨d, hd, hdnull, hdy⟩ := mem_objects.mp hy
    have hdt : d.type = t := ((hvals d hd).resolve_left fun hn => hdnull (.inl hn)).1
    have hbefore := hall d hd hdnull
    rwa [orderKey_integer hc hnull htype hx, orderKey_integer hc hdnull hdt hdy] at hbefore

/-- A set of values on that way. -/
theorem distinctOf_carried (hc : c.integerType = some t)
    (hvals : ∀ d ∈ vals, IntegerOrNull t d) (h : DistinctOf vals elements) :
    carried (.set elements) = some (distinctCell (objects vals)) := by
  -- an element is the same object as the value it stands for
  have hsame : ∀ e w, isLdEqual e w = true → javaValue e = javaValue w := by
    intro e w heq
    obtain ⟨htype, hdata⟩ := Prod.mk.inj (isLdEqual_iff.mp heq)
    exact javaValue_congr htype hdata
  have hmem : ∀ x, (∃ e ∈ elements, javaValue e = some x) ↔ x ∈ objects vals := by
    intro x
    rw [mem_objects]
    constructor
    · rintro ⟨e, he, hx⟩
      obtain ⟨w, hw, hne, heq⟩ := h.subset e he
      exact ⟨w, hw, ((hvals w hw).not_null hc hne).2, (hsame e w heq).symm.trans hx⟩
    · rintro ⟨w, hw, hnull, hx⟩
      obtain ⟨e, he, heq⟩ := h.covers w hw fun hn => hnull (.inl hn)
      exact ⟨e, he, (hsame e w heq).trans hx⟩
  have hall : ∀ e ∈ elements, ∃ x, javaValue e = some x := by
    intro e he
    obtain ⟨w, hw, hne, heq⟩ := h.subset e he
    obtain ⟨x, hx, -⟩ := javaValue_integer hc ((hvals w hw).not_null hc hne).1
    exact ⟨x, (hsame e w heq).trans hx⟩
  obtain ⟨values, hvalues⟩ := mapM_some_of_forall hall
  have hset : ∀ x, x ∈ values ↔ x ∈ objects vals := fun x => (mapM_some_mem hvalues).trans (hmem x)
  cases elements with
  | nil =>
    have hnil : objects vals = [] := eq_nil_iff_forall_not_mem.mpr fun x hx => by
      obtain ⟨e, he, -⟩ := (hmem x).mpr hx
      exact absurd he not_mem_nil
    rw [distinctCell, if_pos hnil]
    rfl
  | cons e es =>
    obtain ⟨x, hx⟩ := hall e mem_cons_self
    have hne : objects vals ≠ [] := ne_nil_of_mem ((hmem x).mp ⟨e, mem_cons_self, hx⟩)
    rw [carried, hvalues, distinctCell, if_neg hne]
    refine congrArg (fun s => some (Cell.set s)) (Finset.ext fun y => ?_)
    rw [mem_toFinset, mem_toFinset, hset]

/-- A count on that way. -/
theorem counts_carried {v : LowData} {n : Nat} (hn : n ≠ 0) (h : AggrFunc.Counts v n)
    (htype : v.len = 8 → v.type = .longlong) :
    carriedData v = some (.value (.long (Int64.ofNat n))) := by
  rcases h with ⟨-, hzero⟩ | ⟨hlen, hnum⟩
  · exact absurd hzero hn
  have hnull : ¬v.IsNull := by
    rintro (hnull | hl)
    · rw [htype hlen] at hnull
      cases hnull
    · omega
  refine carriedData_value hnull ?_
  rw [javaValue, htype hlen]
  refine congrArg (fun n => some (Value.long n)) ?_
  have hle : leAt v.data 0 8 = n % 2 ^ 64 := by
    rw [leAt, drop_zero, take_of_length_le (le_of_eq hlen), hnum]
  have hsigned : signedAt 8 v.data = Int.bmod n (2 ^ 64) := by
    rw [signedAt, hle, toSigned, Int.bmod_def]
    split_ifs <;> push_cast at * <;> omega
  rw [hsigned]
  apply Int64.toInt_inj.mp
  rw [Int64.toInt_ofInt, Int64.toInt_ofNat']
  simp

/-- Every aggregate arrives as the cell of its values. -/
theorem accumulates_carried {cell : AggCell} (hc : c.integerType = some t)
    (hf : f ∈ [FunctionType.count, .countDistinct, .max, .min])
    (hvals : f ≠ .count → ∀ d ∈ vals, IntegerOrNull t d)
    (h : Accumulates funcs t f vals cell) :
    ∃ cell', carried cell = some cell' ∧ CellHolds f vals cell' := by
  cases f
  case count =>
    obtain ⟨v, rfl, hcounts, htype, hzero⟩ := h
    by_cases hnil : vals = []
    · subst hnil
      exact ⟨.null, carriedData_null (.inr (hzero rfl)), rfl⟩
    · refine ⟨_, counts_carried (by simpa using hnil) hcounts htype, ?_⟩
      show _ = ite _ _ _
      rw [if_neg hnil]
  case max | min =>
    obtain ⟨v, rfl, hv⟩ := h
    exact foremost_carried hc (hvals (by decide)) hv
  case countDistinct =>
    rcases h with ⟨rfl, rfl⟩ | ⟨elements, rfl, hset⟩
    · exact ⟨.null, carriedData_null zeroData_isNull, rfl⟩
    · exact ⟨_, distinctOf_carried hc (hvals (by decide)) hset, rfl⟩
  all_goals exact absurd hf (by decide)

end Node

/-! ## §4. Records of groups. -/

def SignedColumns (types : Nat → FieldType) : Prop :=
  ∀ j, ∃ c : JavaClass, c.integerType = some (types j)

section Records

variable {η : Type} (rs : GroupRS) (types : Nat → FieldType)

/-- A row with a value for each source field. -/
structure RowOf (row : SrcRow η) : Prop where
  length : row.cells.length = rs.srcFields.length
  typed : ∀ j, j < rs.srcFields.length → IntegerOrNull (types j) (row.cell j)

/-- A `GroupRS` of COUNT, COUNT DISTINCT, MAX and MIN, with all group fields selected. -/
structure Aggregating : Prop where
  wellFormed : rs.WellFormed
  apart : ∀ a ∈ rs.aggregates, a.index ∉ rs.grpIndex
  selected : ∀ i ∈ rs.grpIndex, i < rs.selN
  functions : ∀ a ∈ rs.aggregates, a.funcType ∈ [FunctionType.count, .countDistinct, .max, .min]
  unranged : ∀ a ∈ rs.aggregates, a.rangeExp = none

def plainCell (row : SrcRow η) (i : Nat) : Option Cell := ((rs.newRow row).data[i]?).bind carried

def groupKey (row : SrcRow η) : List Cell :=
  rs.grpIndex.map fun i => (plainCell rs row i).getD .null

/-- A record that is made of some rows of one group. -/
structure RecordHolds (rows : List (SrcRow η)) (record : Record) : Prop where
  ne : rows ≠ []
  rowsOf : ∀ r ∈ rows, RowOf rs types r
  length : record.data.length = rs.selN
  plain : ∀ i, i ∉ rs.aggregates.map Aggregate.index → ∀ r ∈ rows,
    record.data[i]? = plainCell rs r i
  functions : ∀ a ∈ rs.aggregates, ∃ cell, record.data[a.index]? = some cell ∧
    CellHolds a.funcType (a.values rows) cell

variable {rs types} {rows rows' : List (SrcRow η)} {record record' : Record} {r r' : SrcRow η}

section Values

variable {a : Aggregate}

theorem values_eq (ha : a.rangeExp = none) :
    a.values rows = rows.map fun row => row.cell a.refIndex := by
  have htakes : ∀ row : SrcRow η, a.takes row = true := by
    intro row
    rw [Aggregate.takes, Aggregate.wanted, ha]
  rw [Aggregate.values, filter_eq_self.mpr fun row _ => htakes row]

theorem values_append : a.values (rows ++ rows') = a.values rows ++ a.values rows' := by
  simp [Aggregate.values, filter_append]

theorem values_perm (h : rows.Perm rows') : (a.values rows).Perm (a.values rows') :=
  (h.filter _).map _

theorem Aggregating.values_typed (hrs : Aggregating rs) (ha : a ∈ rs.aggregates)
    (hrows : ∀ r ∈ rows, RowOf rs types r) (hcount : a.funcType ≠ .count) :
    ∀ d ∈ a.values rows, IntegerOrNull (types a.refIndex) d := by
  rw [values_eq (hrs.unranged a ha)]
  intro d hd
  obtain ⟨row, hrow, rfl⟩ := mem_map.mp hd
  exact (hrows row hrow).typed _ (hrs.wellFormed.inSource a ha hcount)

end Values

/-! ### Columns that are no functions. -/

theorem foldl_set_mem {α : Type} {pairs : List (Nat × α)} {data : List α} {x : α}
    (h : x ∈ pairs.foldl (fun data p => data.set p.1 p.2) data) :
    (∃ p ∈ pairs, p.2 = x) ∨ x ∈ data := by
  induction pairs generalizing data with
  | nil => exact .inr h
  | cons p pairs ih =>
    rcases ih h with ⟨q, hq, hx⟩ | hx
    · exact .inl ⟨q, mem_cons_of_mem _ hq, hx⟩
    · rcases mem_or_eq_of_mem_set hx with hx | hx
      · exact .inr hx
      · exact .inl ⟨p, mem_cons_self, hx.symm⟩

theorem foldl_set_map {α β : Type} (g : α → β) (pairs : List (Nat × α)) (data : List α) :
    (pairs.foldl (fun data p => data.set p.1 p.2) data).map g =
      (pairs.map fun p => (p.1, g p.2)).foldl (fun data p => data.set p.1 p.2) (data.map g) := by
  induction pairs generalizing data with
  | nil => rfl
  | cons p pairs ih =>
    rw [foldl_cons, ih, map_cons, foldl_cons, map_set]

theorem zip_take_length {α β : Type} (l : List α) (m : List β) :
    l.zip m = l.zip (m.take l.length) := by
  induction l generalizing m with
  | nil => rfl
  | cons a l ih =>
    cases m with
    | nil => rfl
    | cons b m => rw [length_cons, take_succ_cons, zip_cons_cons, zip_cons_cons, ← ih]

theorem newRow_mem {cell : AggCell} (h : cell ∈ (rs.newRow r).data) :
    (∃ j, j < r.cells.length ∧ cell = .data (r.cell j)) ∨ cell = .data zeroData := by
  rw [newRow_data] at h
  rcases foldl_set_mem h with ⟨p, hp, rfl⟩ | hzero
  · obtain ⟨q, hq, rfl⟩ := mem_map.mp hp
    obtain ⟨j, hj⟩ := mem_iff_getElem?.mp (of_mem_zip hq).2
    refine .inl ⟨j, (List.getElem?_eq_some_iff.mp hj).1, ?_⟩
    rw [SrcRow.cell, hj]
    rfl
  · exact .inr (eq_of_mem_replicate hzero)

theorem newRow_carried (htypes : SignedColumns types) (hr : RowOf rs types r) {cell : AggCell}
    (h : cell ∈ (rs.newRow r).data) : ∃ cell', carried cell = some cell' := by
  rcases newRow_mem h with ⟨j, hj, rfl⟩ | rfl
  · obtain ⟨c, hc⟩ := htypes j
    rw [hr.length] at hj
    exact (hr.typed j hj).carried hc
  · exact ⟨.null, carriedData_null zeroData_isNull⟩

theorem plainCell_some (htypes : SignedColumns types) (hr : RowOf rs types r) {i : Nat}
    (hi : i < rs.selN) : ∃ cell, plainCell rs r i = some cell := by
  have hlt : i < (rs.newRow r).data.length := by rwa [newRow_length]
  rw [plainCell, getElem?_eq_getElem hlt]
  exact newRow_carried htypes hr (getElem_mem hlt)

theorem plainCell_zero {i : Nat} (hgrp : i ∉ rs.grpIndex) :
    plainCell rs r i = if i < rs.selN then some .null else none := by
  by_cases hi : i < rs.selN
  · rw [plainCell, newRow_zero hi hgrp, if_pos hi]
    exact carriedData_null zeroData_isNull
  · have hnone : (rs.newRow r).data[i]? = none := by
      rw [List.getElem?_eq_none_iff, newRow_length]
      omega
    rw [plainCell, hnone, if_neg hi]
    rfl

theorem plainCell_of_grpKey (h : rs.grpKey r = rs.grpKey r') (i : Nat) :
    plainCell rs r i = plainCell rs r' i := by
  -- a cell is carried by its type and its data
  have hcarried : ∀ row : SrcRow η, ((rs.newRow row).data.map carried) =
      ((rs.grpIndex.zip (rs.grpKey row)).map fun p =>
        (p.1, carriedData ⟨[], p.2.1, p.2.2⟩)).foldl (fun data p => data.set p.1 p.2)
        ((replicate rs.selN (AggCell.data zeroData)).map carried) := by
    intro row
    rw [newRow_data, foldl_set_map, GroupRS.groupPairs, GroupRS.grpKey, zip_take_length,
      map_map, zip_map_right, map_map]
    rfl
  have hmap := hcarried r
  rw [h, ← hcarried r'] at hmap
  have hget := congrArg (fun l => l[i]?) hmap
  simp only [getElem?_map] at hget
  rw [plainCell, plainCell]
  cases hleft : (rs.newRow r).data[i]? <;> cases hright : (rs.newRow r').data[i]? <;>
    rw [hleft, hright] at hget <;> simp_all

theorem plainCell_of_groupKey (hrs : Aggregating rs) (htypes : SignedColumns types)
    (hr : RowOf rs types r) (hr' : RowOf rs types r') (h : groupKey rs r = groupKey rs r')
    (i : Nat) : plainCell rs r i = plainCell rs r' i := by
  by_cases hgrp : i ∈ rs.grpIndex
  · obtain ⟨cell, hcell⟩ := plainCell_some htypes hr (hrs.selected i hgrp)
    obtain ⟨cell', hcell'⟩ := plainCell_some htypes hr' (hrs.selected i hgrp)
    have hsame := map_inj_left.mp h i hgrp
    rw [hcell, hcell', Option.getD_some, Option.getD_some] at hsame
    rw [hcell, hcell', hsame]
  · rw [plainCell_zero hgrp, plainCell_zero hgrp]

/-! ### Merging. -/

theorem Aggregating.plain (hrs : Aggregating rs) {i : Nat} (hi : i ∈ rs.grpIndex) :
    i ∉ rs.aggregates.map Aggregate.index := by
  intro hmem
  obtain ⟨a, ha, rfl⟩ := mem_map.mp hmem
  exact hrs.apart a ha hi

theorem RecordHolds.groupKey_eq (h : RecordHolds rs types rows record) (hrs : Aggregating rs)
    (hr : r ∈ rows) (hr' : r' ∈ rows) : groupKey rs r = groupKey rs r' := by
  refine map_congr_left fun i hi => ?_
  rw [← h.plain i (hrs.plain hi) r hr, ← h.plain i (hrs.plain hi) r' hr']

variable {doubles : DoubleFuncs} {step : GroupStep}

/-- The places that `GroupStep` works with. -/
structure StepFor (rs : GroupRS) (step : GroupStep) : Prop where
  funcIndex : step.funcIndex = rs.aggregates.map fun a => (a.index, some a.funcType)
  groupIndex : step.groupIndex = rs.grpIndex

theorem StepFor.index_eq (h : StepFor rs step) :
    step.funcIndex.map Prod.fst = rs.aggregates.map Aggregate.index := by
  rw [h.funcIndex, map_map]
  rfl

theorem StepFor.nodup (h : StepFor rs step) (hrs : Aggregating rs) :
    (step.funcIndex.map Prod.fst).Nodup := h.index_eq ▸ hrs.wellFormed.nodup

variable (hrs : Aggregating rs) (htypes : SignedColumns types)

include hrs htypes

/-- Two records of a group are merged. -/
theorem RecordHolds.merge (hstep : StepFor rs step) (h : RecordHolds rs types rows record)
    (h' : RecordHolds rs types rows' record')
    (hkey : ∀ r ∈ rows, ∀ r' ∈ rows', groupKey rs r = groupKey rs r') :
    ∃ merged, step.mergeRecord doubles record' record = .ok merged ∧
      RecordHolds rs types (rows ++ rows') merged := by
  -- each function merges
  have hone : ∀ a ∈ rs.aggregates, ∃ cell cell' merged, record.data[a.index]? = some cell ∧
      record'.data[a.index]? = some cell' ∧
      mergeFunction doubles (some a.funcType) cell cell' = .ok merged ∧
      CellHolds a.funcType (a.values (rows ++ rows')) merged := by
    intro a ha
    obtain ⟨cell, hcell, hholds⟩ := h.functions a ha
    obtain ⟨cell', hcell', hholds'⟩ := h'.functions a ha
    obtain ⟨c, hc⟩ := htypes a.refIndex
    have htyped : a.funcType ≠ .count →
        ∀ d ∈ a.values rows ++ a.values rows', IntegerOrNull (types a.refIndex) d := fun hf =>
      forall_mem_append.mpr
        ⟨hrs.values_typed ha h.rowsOf hf, hrs.values_typed ha h'.rowsOf hf⟩
    obtain ⟨merged, hrun, hmerged⟩ := hholds.merge doubles hc htyped hholds'
    rw [← values_append] at hmerged
    exact ⟨cell, cell', merged, hcell, hcell', hrun, hmerged⟩
  have hupdates : ∀ p ∈ step.funcIndex, ∃ d d', record.data[p.1]? = some d ∧
      (do mergeFunction doubles p.2 d (← getCell record'.data p.1)) = .ok d' := by
    intro p hp
    rw [hstep.funcIndex] at hp
    obtain ⟨a, ha, rfl⟩ := mem_map.mp hp
    obtain ⟨cell, cell', merged, hcell, hcell', hrun, -⟩ := hone a ha
    refine ⟨cell, merged, hcell, ?_⟩
    rw [getCell_ok hcell']
    exact hrun
  obtain ⟨data, hrun, hlen, hupdated, hkept⟩ :=
    @updateAtM_ok _ _ _ _ _ Fault.indexOutOfBounds _ (hstep.nodup hrs) _ hupdates
  refine ⟨{ record with data := data }, ?_, ?_⟩
  · rw [GroupStep.mergeRecord, computeFunction_eq, hrun]
    rfl
  refine ⟨by simp [h.ne], forall_mem_append.mpr ⟨h.rowsOf, h'.rowsOf⟩, hlen.trans h.length, ?_, ?_⟩
  · intro i hi r hr
    show data[i]? = _
    rw [hkept i (by rwa [hstep.index_eq])]
    rcases mem_append.mp hr with hr | hr
    · exact h.plain i hi r hr
    · obtain ⟨r₀, hr₀⟩ := exists_mem_of_ne_nil rows h.ne
      rw [h.plain i hi r₀ hr₀]
      exact plainCell_of_groupKey hrs htypes (h.rowsOf r₀ hr₀) (h'.rowsOf r hr)
        (hkey r₀ hr₀ r hr) i
  · intro a ha
    have hp : (a.index, some a.funcType) ∈ step.funcIndex := by
      rw [hstep.funcIndex]
      exact mem_map.mpr ⟨a, ha, rfl⟩
    obtain ⟨d, d', hd, hd', hget⟩ := hupdated _ hp
    obtain ⟨cell, cell', merged, hcell, hcell', hrun', hholds⟩ := hone a ha
    obtain rfl := Option.some.inj (hd.symm.trans hcell)
    simp only [getCell_ok hcell', bind, Except.bind, hrun', Except.ok.injEq] at hd'
    exact ⟨d', hget, hd' ▸ hholds⟩

theorem RecordHolds.data_eq : ReadsSame (RecordHolds (η := η) rs types) Record.data := by
  intro rows rows' record record' hperm h h'
  refine ext_getElem? fun i => ?_
  by_cases hi : i ∈ rs.aggregates.map Aggregate.index
  · obtain ⟨a, ha, rfl⟩ := mem_map.mp hi
    obtain ⟨cell, hcell, hholds⟩ := h.functions a ha
    obtain ⟨cell', hcell', hholds'⟩ := h'.functions a ha
    obtain ⟨c, hc⟩ := htypes a.refIndex
    rw [hcell, hcell', hholds.unique hc (hrs.values_typed ha h.rowsOf) (values_perm hperm) hholds']
  · obtain ⟨r, hr⟩ := exists_mem_of_ne_nil rows h.ne
    rw [h.plain i hi r hr, h'.plain i hi r (hperm.mem_iff.mp hr)]

/-! ## §5. `GroupStep` over such records. -/

theorem RecordHolds.key (h : RecordHolds rs types rows record) (hstep : StepFor rs step)
    (hr : r ∈ rows) :
    step.groupIndex.mapM (getCell record.data) = .ok (groupKey rs r) := by
  have hmap := @mapM_map_ok Nat Nat Fault Cell (getCell record.data) id
    (fun i => (plainCell rs r i).getD .null) rs.grpIndex ?_
  · rw [map_id] at hmap
    rw [hstep.groupIndex]
    exact hmap
  · intro i hi
    obtain ⟨cell, hcell⟩ := plainCell_some htypes (h.rowsOf r hr) (hrs.selected i hi)
    refine getCell_ok ?_
    rw [id, h.plain i (hrs.plain hi) r hr, hcell]
    rfl

/-- The records of all nodes are collected. -/
theorem GroupStep.collect_ok (hstep : StepFor rs step) {groups : List (List (SrcRow η))}
    {records : List Record}
    (h : Forall₂ (RecordHolds rs types) groups records) {done : List (SrcRow η)}
    {map : List (List Cell × Record)}
    (hmap : Grouped (groupKey rs) (RecordHolds rs types) done map) :
    ∃ map', step.collect doubles records map = .ok map' ∧
      Grouped (groupKey rs) (RecordHolds rs types) (done ++ groups.flatten) map' := by
  induction h generalizing done map with
  | nil => exact ⟨map, rfl, by simpa using hmap⟩
  | @cons rows record groups records hhead htail ih =>
    obtain ⟨r, hr⟩ := exists_mem_of_ne_nil rows hhead.ne
    obtain ⟨map₁, hput, hgrouped⟩ := @Grouped.upsert _ _ Fault _ _ _ _ _ rows _ (groupKey rs r)
      hmap (.ok record) (step.mergeRecord doubles record) hhead.ne
      (fun r' hr' => hhead.groupKey_eq hrs hr' hr) ⟨record, rfl, hhead⟩
      (fun value hvalue => hvalue.merge hrs htypes hstep hhead fun r₁ hr₁ r₂ hr₂ =>
        (mem_rowsOf.mp hr₁).2.trans (hhead.groupKey_eq hrs hr hr₂))
    obtain ⟨map', hrun, hgrouped'⟩ := ih hgrouped
    refine ⟨map', ?_, ?_⟩
    · simp only [GroupStep.collect, hhead.key hrs htypes hstep hr, bind, Except.bind,
        GroupStep.putRecord_eq, hput]
      exact hrun
    · rwa [flatten_cons, ← append_assoc]

def finished (doubles : DoubleFuncs) (step : GroupStep) (data : List Cell) : List Cell :=
  match finishFunctions doubles step.funcIndex data with
  | .ok done => done
  | .error _ => data

omit htypes in
theorem RecordHolds.finish (h : RecordHolds rs types rows record) (hstep : StepFor rs step) :
    finishFunctions doubles step.funcIndex record.data =
      .ok (finished doubles step record.data) := by
  have hupdates : ∀ p ∈ step.funcIndex, ∃ d d', record.data[p.1]? = some d ∧
      finishFunction doubles p.2 d = .ok d' := by
    intro p hp
    rw [hstep.funcIndex] at hp
    obtain ⟨a, ha, rfl⟩ := mem_map.mp hp
    obtain ⟨cell, hcell, hholds⟩ := h.functions a ha
    obtain ⟨done, hdone⟩ := hholds.finish doubles
    exact ⟨cell, done, hcell, hdone⟩
  obtain ⟨data, hrun, -⟩ :=
    @updateAtM_ok _ _ _ _ _ Fault.indexOutOfBounds _ (hstep.nodup hrs) _ hupdates
  rw [finished, finishFunctions_eq, hrun]

def resultData (doubles : DoubleFuncs) (step : GroupStep) (map : List (List Cell × Record)) :
    List (List Cell) :=
  if map = [] ∧ step.groupIndex = [] then
    [step.selectFields.map fun field => emptyFunction field.functionId]
  else map.map fun e => finished doubles step e.2.data

/-- The group step gives one record for each group. -/
theorem GroupStep.execute_ok (order : HashOrder) (hstep : StepFor rs step)
    {groups : List (List (SrcRow η))} {records : List Record}
    (h : Forall₂ (RecordHolds rs types) groups records) :
    ∃ map out, Grouped (groupKey rs) (RecordHolds rs types) groups.flatten map ∧
      step.execute doubles order records = .ok out ∧
      (out.map Record.data).Perm (resultData doubles step map) := by
  obtain ⟨map, hcollect, hgrouped⟩ :=
    @collect_ok _ _ _ doubles _ hrs htypes hstep _ _ h _ _ Grouped.nil
  rw [nil_append] at hgrouped
  have hvisit := order.perm map
  have hmap := @mapM_map_ok (List Cell × Record) (List Cell × Record) Fault Record
    (fun entry => do
      return { entry.2 with data := ← finishFunctions doubles step.funcIndex entry.2.data }) id
    (fun e => { e.2 with data := finished doubles step e.2.data }) (order.visit map) ?_
  · rw [map_id] at hmap
    simp only [bind, Except.bind] at hmap
    by_cases hempty : map = [] ∧ step.groupIndex = []
    · have hnil : order.visit map = [] := by
        rw [hempty.1] at hvisit ⊢
        exact hvisit.eq_nil
      refine ⟨map, [⟨0, step.selectFields.map fun field => emptyFunction field.functionId⟩],
        hgrouped, ?_, ?_⟩
      · simp only [GroupStep.execute, hcollect, bind, Except.bind, hmap]
        rw [hnil, map_nil, if_pos ⟨rfl, hempty.2⟩]
        rfl
      · rw [resultData, if_pos hempty]
        exact Perm.refl _
    · refine ⟨map, (order.visit map).map fun e =>
        { e.2 with data := finished doubles step e.2.data }, hgrouped, ?_, ?_⟩
      · simp only [GroupStep.execute, hcollect, bind, Except.bind, hmap]
        rw [if_neg]
        · rfl
        · rintro ⟨hnil, hgroup⟩
          rw [map_eq_nil_iff] at hnil
          rw [hnil] at hvisit
          exact hempty ⟨hvisit.nil_eq.symm, hgroup⟩
      · rw [resultData, if_neg hempty, map_map]
        exact hvisit.map _
  · intro e he
    simp only [id, (hgrouped.holds e (hvisit.mem_iff.mp he)).finish hrs hstep, bind, Except.bind]
    rfl

/-- The result depends on the rows only. -/
theorem resultData_perm {map map' : List (List Cell × Record)}
    (h : Grouped (groupKey rs) (RecordHolds rs types) rows map)
    (h' : Grouped (groupKey rs) (RecordHolds rs types) rows' map') (hperm : rows.Perm rows') :
    (resultData doubles step map).Perm (resultData doubles step map') := by
  have hout : ReadsSame (RecordHolds rs types (η := η)) fun record =>
      finished doubles step record.data := fun _ _ _ _ hp hd hd' =>
    congrArg (finished doubles step) (RecordHolds.data_eq hrs htypes _ _ _ _ hp hd hd')
  have hmaps := (h.perm_out hout h' hperm).map Prod.snd
  rw [map_map, map_map] at hmaps
  have hnil : map = [] ↔ map' = [] := by
    rw [← length_eq_zero_iff, ← length_eq_zero_iff]
    have hlen := hmaps.length_eq
    rw [length_map, length_map] at hlen
    rw [hlen]
  unfold resultData
  simp only [hnil]
  split_ifs
  · exact Perm.refl _
  · exact hmaps

end Records

/-! ## §6. The nodes. -/

section Nodes

variable {η : Type} {funcs : AggrFunc.OtherFuncs} {rs : GroupRS} {types : Nat → FieldType}
  {rows : List (SrcRow η)} {records : List Record}

def carriedRow (sel : GroupRow η) : Option (List Cell) := sel.data.mapM carried

/-- The records a node answers with: the rows of its `GroupRS`, in the order of the
hash map. -/
def NodeAnswer (funcs : AggrFunc.OtherFuncs) (rs : GroupRS) (rows : List (SrcRow η))
    (records : List Record) : Prop :=
  ∃ map listed, rs.addResults funcs rows = .ok map ∧ listed.Perm map ∧
    Forall₂ (fun e record => carriedRow e.2 = some record.data) listed records

variable (hrs : Aggregating rs)

include hrs

variable (htypes : SignedColumns types)

include htypes

theorem Aggregating.fits {r : SrcRow η} (hr : RowOf rs types r) :
    rs.Fits types r where
  length := hr.length
  wanted a ha := ⟨true, by rw [Aggregate.wanted, hrs.unranged a ha]⟩
  typed a ha := by
    intro hpick
    have hcount : a.funcType ≠ .count := by
      rcases hpick with h | h <;> rw [h] <;> decide
    obtain ⟨c, hc⟩ := htypes a.refIndex
    exact ⟨.inl (integerType_signed hc).1,
      (hr.typed _ (hrs.wellFormed.inSource a ha hcount)).ofColumn⟩

/-- A group of a node arrives as its record. -/
theorem group_carried {sel : GroupRow η} {all : List (SrcRow η)} {key : List (FieldType × Bytes)}
    (hrows : ∀ r ∈ all, RowOf rs types r)
    (h : rs.HoldsRows funcs types (rowsOf rs.grpKey key all) sel) :
    ∃ data, carriedRow sel = some data ∧
      ∀ docid, RecordHolds rs types (rowsOf rs.grpKey key all) ⟨docid, data⟩ := by
  replace hrows : ∀ r ∈ rowsOf rs.grpKey key all, RowOf rs types r := fun r hr =>
    hrows r (mem_rowsOf.mp hr).1
  have hkey : ∀ r ∈ rowsOf rs.grpKey key all, rs.grpKey r = key := fun r hr => (mem_rowsOf.mp hr).2
  generalize rowsOf rs.grpKey key all = rows at *
  obtain ⟨first, hfirst, hkept⟩ := h
  have hmem : first ∈ rows := mem_of_head? hfirst
  have hfunction : ∀ a ∈ rs.aggregates, ∃ cell cell', sel.data[a.index]? = some cell ∧
      carried cell = some cell' ∧ CellHolds a.funcType (a.values rows) cell' := by
    intro a ha
    obtain ⟨cell, hcell, hacc⟩ := hkept.accumulated a ha
    obtain ⟨c, hc⟩ := htypes a.refIndex
    obtain ⟨cell', hcarried, hholds⟩ :=
      accumulates_carried hc (hrs.functions a ha) (hrs.values_typed ha hrows) hacc
    exact ⟨cell, cell', hcell, hcarried, hholds⟩
  have hall : ∀ cell ∈ sel.data, ∃ cell', carried cell = some cell' := by
    intro cell hin
    obtain ⟨i, hi⟩ := mem_iff_getElem?.mp hin
    by_cases hfun : i ∈ rs.aggregates.map Aggregate.index
    · obtain ⟨a, ha, rfl⟩ := mem_map.mp hfun
      obtain ⟨cell₁, cell', hcell, hcarried, -⟩ := hfunction a ha
      obtain rfl := Option.some.inj (hi.symm.trans hcell)
      exact ⟨cell', hcarried⟩
    · rw [hkept.plain i hfun] at hi
      exact newRow_carried htypes (hrows first hmem) (mem_of_getElem? hi)
  obtain ⟨data, hdata⟩ := mapM_some_of_forall hall
  have hlen : data.length = rs.selN := by
    rw [← hkept.length]
    exact (mapM_some_forall₂ hdata).length_eq.symm
  refine ⟨data, hdata, fun docid => ⟨ne_nil_of_mem hmem, hrows, hlen, ?_, ?_⟩⟩
  · intro i hi r hr
    show data[i]? = _
    rw [mapM_some_get hdata, hkept.plain i hi]
    exact plainCell_of_grpKey ((hkey first hmem).trans (hkey r hr).symm) i
  · intro a ha
    obtain ⟨cell, cell', hcell, hcarried, hholds⟩ := hfunction a ha
    refine ⟨cell', ?_, hholds⟩
    show data[a.index]? = _
    rw [mapM_some_get hdata, hcell]
    exact hcarried

/-- The answer of a node by its groups. -/
theorem nodeAnswer_groups (hrows : ∀ r ∈ rows, RowOf rs types r)
    (h : NodeAnswer funcs rs rows records) :
    ∃ groups, Forall₂ (RecordHolds rs types) groups records ∧ groups.flatten.Perm rows := by
  obtain ⟨map, listed, hrun, hperm, hcarried⟩ := h
  obtain ⟨map', hrun', hgrouped⟩ := @GroupRS.grouped_rows _ funcs _ _ _ hrs.wellFormed hrs.apart
    fun r hr => hrs.fits htypes (hrows r hr)
  obtain rfl := Except.ok.inj (hrun.symm.trans hrun')
  refine ⟨listed.map fun e => rowsOf rs.grpKey e.1 rows, ?_, ?_⟩
  · rw [forall₂_map_left_iff]
    refine Forall₂.imp ?_ ((forall₂_and_left _ _).mpr
      ⟨fun e he => hperm.mem_iff.mp he, hcarried⟩)
    rintro e record ⟨he, hdata⟩
    obtain ⟨data, hdata', hholds⟩ := group_carried hrs htypes hrows (hgrouped.holds e he)
    obtain rfl := Option.some.inj (hdata.symm.trans hdata')
    exact hholds record.docid
  · rw [← flatMap_def]
    exact (hperm.flatMap_right _).trans hgrouped.perm_flatMap

theorem nodeAnswers_groups {nodes : List (List (SrcRow η))} {answers : List (List Record)}
    (hrows : ∀ rows ∈ nodes, ∀ r ∈ rows, RowOf rs types r)
    (h : Forall₂ (NodeAnswer funcs rs) nodes answers) :
    ∃ groups, Forall₂ (RecordHolds rs types) groups answers.flatten ∧
      groups.flatten.Perm nodes.flatten := by
  induction h with
  | nil => exact ⟨[], .nil, Perm.refl _⟩
  | @cons rows records nodes answers hhead htail ih =>
    obtain ⟨hrow, hrest⟩ := forall_mem_cons.mp hrows
    obtain ⟨groups, hgroups, hperm⟩ := nodeAnswer_groups hrs htypes hrow hhead
    obtain ⟨groups', hgroups', hperm'⟩ := ih hrest
    refine ⟨groups ++ groups', ?_, ?_⟩
    · rw [flatten_cons]
      exact rel_append hgroups hgroups'
    · rw [List.flatten_append, flatten_cons]
      exact hperm.append hperm'

theorem exists_nodeAnswer (hrows : ∀ r ∈ rows, RowOf rs types r) :
    ∃ records, NodeAnswer funcs rs rows records := by
  obtain ⟨map, hrun, hgrouped⟩ := @GroupRS.grouped_rows _ funcs _ _ _ hrs.wellFormed hrs.apart
    fun r hr => hrs.fits htypes (hrows r hr)
  have hall : ∀ e ∈ map, ∃ data, carriedRow e.2 = some data := by
    intro e he
    exact (group_carried hrs htypes hrows (hgrouped.holds e he)).imp fun _ h => h.1
  obtain ⟨datas, hdatas⟩ := mapM_some_of_forall hall
  refine ⟨datas.map fun data => ⟨0, data⟩, map, map, hrun, Perm.refl _, ?_⟩
  rw [forall₂_map_right_iff]
  exact mapM_some_forall₂ hdatas

end Nodes

/-! ## §7. The query on both sides. -/

def nameBytes (name : String) : Bytes := name.toByteArray.data.toList

theorem nameBytes_inj {m n : String} : nameBytes m = nameBytes n ↔ m = n := by
  constructor
  · intro h
    exact String.toByteArray_inj.mp (ByteArray.ext (Array.toList_inj.mp h))
  · rintro rfl
    rfl

/-- A field as the docserver is told of it: a function without WITHIN, or a column. -/
def FieldDesc.selectField (field : FieldDesc) : SelectField :=
  match field.isComputeField, field.functionId with
  | true, some f => .function f (nameBytes field.fieldName) (nameBytes field.refColumnName) none
  | _, _ => .value (nameBytes field.fieldName)

/-- A select list of columns and of COUNT, COUNT DISTINCT, MAX and MIN; a function is
not named like a column. -/
structure AggregateQuery (group select : List FieldDesc) : Prop where
  columns : ∀ g ∈ group, g.Plain
  unranged : ∀ field ∈ select, field.withinExpr = none
  functions : ∀ field ∈ select, field.isComputeField = true →
    ∃ f ∈ [FunctionType.count, .countDistinct, .max, .min], field.functionId = some f
  named : ∀ field ∈ select, field.isComputeField = true → ∀ g ∈ group,
    field.fieldName ≠ g.fieldName

def arguments (select : List FieldDesc) : List String :=
  (select.filter fun field => field.isComputeField && field.functionId ≠ some .count).map
    FieldDesc.refColumnName

section Query

variable {group select : List FieldDesc} {step : GroupStep} {rs : GroupRS}

theorem selectFields_unranged : ∀ field ∈ select.map FieldDesc.selectField, field.Unranged := by
  refine forall_mem_map.mpr fun field _ => ?_
  unfold FieldDesc.selectField
  cases field.isComputeField <;> cases field.functionId <;> trivial

theorem selectField_plain {field : FieldDesc} (h : field.isComputeField = false) :
    field.selectField = .value (nameBytes field.fieldName) := by
  rw [FieldDesc.selectField, h]

theorem selectField_function {field : FieldDesc} {f : FunctionType}
    (h : field.isComputeField = true) (hf : field.functionId = some f) :
    field.selectField =
      .function f (nameBytes field.fieldName) (nameBytes field.refColumnName) none := by
  rw [FieldDesc.selectField, h, hf]

theorem AggregateQuery.isValue_eq (h : AggregateQuery group select) {g field : FieldDesc}
    (hg : g ∈ group) (hfield : field ∈ select) :
    field.selectField.isValue (nameBytes g.fieldName) = g.equals field := by
  cases hcompute : field.isComputeField with
  | false =>
    rw [selectField_plain hcompute, SelectField.isValue, FieldDesc.equals, (h.columns g hg).2,
      h.unranged field hfield]
    simp only [nameBytes_inj, decide_true, Bool.true_and]
    exact decide_eq_decide.mpr eq_comm
  | true =>
    obtain ⟨f, -, hf⟩ := h.functions field hfield hcompute
    rw [selectField_function hcompute hf, SelectField.isValue, FieldDesc.equals]
    have hname := h.named field hfield hcompute g hg
    simp [Ne.symm hname]

theorem findIdx?_congr {α : Type} {p q : α → Bool} {l : List α} (h : ∀ a ∈ l, p a = q a) :
    l.findIdx? p = l.findIdx? q := by
  induction l with
  | nil => rfl
  | cons a l ih =>
    obtain ⟨ha, hl⟩ := forall_mem_cons.mp h
    rw [findIdx?_cons, findIdx?_cons, ha, ih hl]

section

variable (h : AggregateQuery group select)

include h

theorem AggregateQuery.indexOf_eq {g : FieldDesc} (hg : g ∈ group) :
    (select.map FieldDesc.selectField).findIdx? (SelectField.isValue (nameBytes g.fieldName)) =
      g.indexOf select := by
  rw [findIdx?_map, FieldDesc.indexOf]
  exact findIdx?_congr fun field hfield => h.isValue_eq hg hfield

/-- Both servers see the same functions. -/
theorem AggregateQuery.funcIndex_eq :
    ∀ {fields : List FieldDesc} {i : Nat} {index : List (Nat × Option FunctionType)},
      (∀ field ∈ fields, field ∈ select) → funcIndexFrom group fields i = .ok index →
      index =
        (functionsFrom (fields.map FieldDesc.selectField) i).map fun p => (p.1, some p.2) := by
  intro fields
  induction fields with
  | nil =>
    intro i index _ hrun
    exact (Except.ok.inj hrun).symm
  | cons field fields ih =>
    intro i index hin hrun
    obtain ⟨hfield, hfields⟩ := forall_mem_cons.mp hin
    cases hcompute : field.isComputeField with
    | true =>
      obtain ⟨f, -, hf⟩ := h.functions field hfield hcompute
      rw [funcIndexFrom, if_pos hcompute] at hrun
      cases hrest : funcIndexFrom group fields (i + 1) with
      | error fault =>
        rw [hrest] at hrun
        cases hrun
      | ok rest =>
        rw [hrest] at hrun
        obtain rfl : (i, field.functionId) :: rest = index := Except.ok.inj hrun
        rw [map_cons, selectField_function hcompute hf, functionsFrom, map_cons,
          ih hfields hrest, hf]
    | false =>
      rw [funcIndexFrom, if_neg (by simp [hcompute])] at hrun
      by_cases hgroup : field.isIn group = true
      · rw [if_pos hgroup] at hrun
        rw [map_cons, selectField_plain hcompute, functionsFrom, ih hfields hrun]
      · rw [if_neg hgroup] at hrun
        cases hrun

variable (hstep : GroupStep.make group select = .ok step)

include hstep

theorem AggregateQuery.step_spec :
    step.selectFields = select ∧
      step.funcIndex =
        (functionsFrom (select.map FieldDesc.selectField) 0).map (fun p => (p.1, some p.2)) ∧
      Forall₂ (fun g j => g.indexOf select = some j) group step.groupIndex := by
  obtain ⟨funcIndex, hfunc, hrest⟩ := except_bind_ok hstep
  obtain ⟨groupIndex, hgroup, hdone⟩ := except_bind_ok hrest
  obtain rfl := Except.ok.inj hdone
  refine ⟨rfl, h.funcIndex_eq (fun _ hin => hin) hfunc, ?_⟩
  refine (mapM_ok_forall₂ hgroup).imp fun g j hj => ?_
  cases hindex : g.indexOf select with
  | none =>
    rw [hindex] at hj
    cases hj
  | some k =>
    rw [hindex] at hj
    rw [Except.ok.inj hj]

variable (hrs : GroupRS.make (select.map FieldDesc.selectField)
  (group.map fun g => nameBytes g.fieldName) = some rs)

include hrs

theorem AggregateQuery.stepFor : StepFor rs step := by
  obtain ⟨-, -, hgrp, hagr, -⟩ := GroupRS.make_spec hrs
  obtain ⟨-, hfunc, hgroup⟩ := h.step_spec hstep
  refine ⟨?_, ?_⟩
  · rw [hfunc, ← hagr, map_map]
    rfl
  · rw [hgrp, map_map]
    refine forall₂_eq_map hgroup fun g hg j hj => ?_
    rw [Function.comp_apply, h.indexOf_eq hg, hj, Option.getD_some]

theorem AggregateQuery.aggregating : Aggregating rs := by
  obtain ⟨-, hsel, hgrp, -⟩ := GroupRS.make_spec hrs
  obtain ⟨-, -, hgroup⟩ := h.step_spec hstep
  -- a group field is selected
  have hindex : ∀ g ∈ group, ∃ j, (select.map FieldDesc.selectField).findIdx?
      (SelectField.isValue (nameBytes g.fieldName)) = some j := by
    intro g hg
    rw [h.indexOf_eq hg]
    exact forall₂_exists hgroup hg
  refine ⟨GroupRS.make_wellFormed hrs, GroupRS.make_apart hrs ?_, ?_, ?_,
    GroupRS.make_rangeExp selectFields_unranged hrs⟩
  · intro name hname
    obtain ⟨g, hg, rfl⟩ := mem_map.mp hname
    obtain ⟨j, hj⟩ := hindex g hg
    obtain ⟨hlt, htest, -⟩ := findIdx?_eq_some_iff_getElem.mp hj
    exact ⟨_, getElem_mem hlt, htest⟩
  · intro i hi
    rw [hgrp, map_map] at hi
    obtain ⟨g, hg, rfl⟩ := mem_map.mp hi
    obtain ⟨j, hj⟩ := hindex g hg
    obtain ⟨hlt, -⟩ := findIdx?_eq_some_iff_getElem.mp hj
    rw [Function.comp_apply, hj, Option.getD_some, hsel]
    exact hlt
  · intro a ha
    obtain ⟨sel, name, range, hget⟩ := functionsFrom_get (GroupRS.make_function hrs ha)
    obtain ⟨field, hfield, heq⟩ := mem_map.mp (mem_of_getElem? hget)
    cases hcompute : field.isComputeField with
    | false =>
      rw [selectField_plain hcompute] at heq
      cases heq
    | true =>
      obtain ⟨f, hf, hid⟩ := h.functions field hfield hcompute
      rw [selectField_function hcompute hid] at heq
      have hfunc : f = a.funcType := (SelectField.function.inj heq).1
      rwa [← hfunc]

end

/-! ### Room for the source fields. -/

theorem foldl_addName_length {ν : Type} [DecidableEq ν] (refs names : List ν) :
    (refs.foldl addName names).length =
      names.length + (refs.toFinset \ names.toFinset).card := by
  induction refs generalizing names with
  | nil => simp
  | cons name refs ih =>
    rw [foldl_cons, ih, toFinset_cons, addName]
    by_cases hin : name ∈ names
    · rw [if_pos hin, Finset.insert_sdiff_of_mem _ (mem_toFinset.mpr hin)]
    · have hset : insert name refs.toFinset \ names.toFinset =
          insert name (refs.toFinset \ (names ++ [name]).toFinset) := by
        ext x
        by_cases hx : x = name <;> simp [hx, hin]
      rw [if_neg hin, hset, Finset.card_insert_of_notMem (by simp), length_append, length_singleton]
      omega

theorem argument_selectField {field : FieldDesc}
    (h : field.isComputeField = true → ∃ f, field.functionId = some f) :
    field.selectField.argument? =
      if field.isComputeField && field.functionId ≠ some .count then
        some (nameBytes field.refColumnName)
      else none := by
  cases hcompute : field.isComputeField with
  | false =>
    rw [selectField_plain hcompute]
    rfl
  | true =>
    obtain ⟨f, hf⟩ := h hcompute
    rw [selectField_function hcompute hf, SelectField.argument?, hf]
    by_cases hcount : f = .count
    · simp [hcount]
    · simp [hcount]

theorem argument_names {fields : List FieldDesc}
    (h : ∀ field ∈ fields, field.isComputeField = true → ∃ f, field.functionId = some f) :
    (fields.map FieldDesc.selectField).filterMap SelectField.argument? =
      (arguments fields).map nameBytes := by
  unfold arguments
  induction fields with
  | nil => rfl
  | cons field fields ih =>
    obtain ⟨hfield, hfields⟩ := forall_mem_cons.mp h
    have harg := argument_selectField hfield
    by_cases htest : (field.isComputeField && field.functionId ≠ some .count) = true
    · rw [if_pos htest] at harg
      rw [map_cons, filterMap_cons_some harg, filter_cons, if_pos htest,
        ih hfields, map_cons, map_cons]
    · rw [if_neg htest] at harg
      rw [map_cons, filterMap_cons_none harg, filter_cons, if_neg htest, ih hfields]

/-- The condition for the arrays of `GroupRS` to be large enough. -/
abbrev ArraysFit (group select : List FieldDesc) : Prop :=
  group.length ≤ select.length ∧
    group.length +
        ((arguments select).toFinset \ (group.map FieldDesc.fieldName).toFinset).card ≤ 1000

/-- When the docserver's arrays are large enough. -/
theorem AggregateQuery.make_isSome (h : AggregateQuery group select) :
    (GroupRS.make (select.map FieldDesc.selectField)
      (group.map fun g => nameBytes g.fieldName)).isSome ↔ ArraysFit group select := by
  have hfunctions : ∀ field ∈ select, field.isComputeField = true →
      ∃ f, field.functionId = some f := by
    intro field hfield hcompute
    obtain ⟨f, -, hf⟩ := h.functions field hfield hcompute
    exact ⟨f, hf⟩
  have hnames : (group.map fun g => nameBytes g.fieldName) =
      (group.map FieldDesc.fieldName).map nameBytes := by
    rw [map_map]
    rfl
  have hcard : (((arguments select).map nameBytes).toFinset \
      ((group.map FieldDesc.fieldName).map nameBytes).toFinset).card =
      ((arguments select).toFinset \ (group.map FieldDesc.fieldName).toFinset).card := by
    have himage : ∀ l : List String, (l.map nameBytes).toFinset = l.toFinset.image nameBytes := by
      intro l
      ext x
      simp
    rw [himage, himage, ← Finset.image_sdiff _ _ fun _ _ heq => nameBytes_inj.mp heq]
    exact Finset.card_image_of_injective _ fun _ _ heq => nameBytes_inj.mp heq
  rw [GroupRS.make_unranged selectFields_unranged, argument_names hfunctions, foldl_addName_length,
    hnames, hcard, length_map, length_map, length_map, ArraysFit]
  rfl

end Query

/-! ## §8. Distributed and central aggregation. -/

/-- **Distributed aggregation is central aggregation.**  For any rows on any nodes,
`GroupStep` gives over the answers of the nodes what it gives over the answer of one
node with all rows, and without rows and group fields one row of zeros and nulls;
this exactly if the arrays of `GroupRS` are large enough for the query. -/
theorem distributed_aggregation {η : Type} (funcs : AggrFunc.OtherFuncs) (doubles : DoubleFuncs)
    (order order' : HashOrder) {group select : List FieldDesc} {step : GroupStep}
    (hquery : AggregateQuery group select) (hstep : GroupStep.make group select = .ok step) :
    (∃ rs, GroupRS.make (select.map FieldDesc.selectField)
          (group.map fun g => nameBytes g.fieldName) = some rs ∧
        ∀ (types : Nat → FieldType) (nodes : List (List (SrcRow η))) (all : List (SrcRow η)),
          SignedColumns types → (∀ r ∈ all, RowOf rs types r) → all.Perm nodes.flatten →
          (∃ answers whole, Forall₂ (NodeAnswer funcs rs) nodes answers ∧
            NodeAnswer funcs rs all whole) ∧
          ∀ answers whole, Forall₂ (NodeAnswer funcs rs) nodes answers →
            NodeAnswer funcs rs all whole →
            ∃ out out', step.execute doubles order answers.flatten = .ok out ∧
              step.execute doubles order' whole = .ok out' ∧
              (out.map Record.data).Perm (out'.map Record.data) ∧
              (all = [] → group = [] →
                out.map Record.data = [select.map fun field => emptyFunction field.functionId])) ↔
      ArraysFit group select := by
  rw [← hquery.make_isSome, Option.isSome_iff_exists]
  constructor
  · rintro ⟨rs, hrs, -⟩
    exact ⟨rs, hrs⟩
  rintro ⟨rs, hrs⟩
  refine ⟨rs, hrs, fun types nodes all htypes hall hperm => ?_⟩
  have hagg := hquery.aggregating hstep hrs
  have hfor := hquery.stepFor hstep hrs
  have hnodes : ∀ rows ∈ nodes, ∀ r ∈ rows, RowOf rs types r := by
    intro rows hrows r hr
    exact hall r (hperm.mem_iff.mpr (mem_flatten.mpr ⟨rows, hrows, hr⟩))
  refine ⟨?_, ?_⟩
  · obtain ⟨answers, hanswers⟩ := exists_forall₂ fun rows hrows =>
      @exists_nodeAnswer η funcs rs types rows hagg htypes (hnodes rows hrows)
    obtain ⟨whole, hwhole⟩ := @exists_nodeAnswer η funcs rs types all hagg htypes hall
    exact ⟨answers, whole, hanswers, hwhole⟩
  · intro answers whole hanswers hwhole
    obtain ⟨groups, hgroups, hflat⟩ := nodeAnswers_groups hagg htypes hnodes hanswers
    obtain ⟨groups', hgroups', hflat'⟩ := nodeAnswer_groups hagg htypes hall hwhole
    obtain ⟨map, out, hmap, hout, hdata⟩ :=
      @GroupStep.execute_ok η rs types doubles step hagg htypes order hfor _ _ hgroups
    obtain ⟨map', out', hmap', hout', hdata'⟩ :=
      @GroupStep.execute_ok η rs types doubles step hagg htypes order' hfor _ _ hgroups'
    have hrows : groups.flatten.Perm groups'.flatten :=
      (hflat.trans hperm.symm).trans hflat'.symm
    refine ⟨out, out', hout, hout', ?_, ?_⟩
    · exact (hdata.trans (resultData_perm hagg htypes hmap hmap' hrows)).trans hdata'.symm
    · rintro rfl rfl
      obtain ⟨hselect, -, hgroup⟩ := hquery.step_spec hstep
      have hnil : groups.flatten = [] := (hflat.trans hperm.symm).eq_nil
      rw [hnil] at hmap
      rw [resultData, if_pos ⟨hmap.eq_nil, forall₂_nil_left_iff.mp hgroup⟩, hselect] at hdata
      exact perm_singleton.mp hdata

def columnField (name : String) : FieldDesc := { fieldName := name }

def functionField (f : FunctionType) (functionName column : String) : FieldDesc where
  fieldName := functionName ++ " (" ++ column ++ ")"
  functionName := functionName
  functionId := some f
  refColumnName := column

/-- `SELECT a, COUNT (b), MAX (b) … GROUP BY a`. -/
def countAndMax : List FieldDesc :=
  [columnField "a", functionField .count "COUNT" "b", functionField .max "MAX" "b"]

def idleFuncs : AggrFunc.OtherFuncs where
  sum _ _ := zeroData
  other _ _ _ := zeroData
  sum_len _ _ := zeroData_len_lt
  other_len _ _ _ := zeroData_len_lt

theorem countAndMax_query : AggregateQuery [columnField "a"] countAndMax where
  columns := by simp only [forall_mem_singleton]; exact ⟨by decide +kernel, rfl⟩
  unranged := by decide +kernel
  functions := by decide +kernel
  named := by decide +kernel

theorem distributed_aggregation_countAndMax :
    ∃ rs step, GroupRS.make (countAndMax.map FieldDesc.selectField)
        ([columnField "a"].map fun g => nameBytes g.fieldName) = some rs ∧
      GroupStep.make [columnField "a"] countAndMax = .ok step ∧
      ∀ (types : Nat → FieldType) (nodes : List (List (SrcRow Nat))) (all : List (SrcRow Nat)),
        SignedColumns types → (∀ r ∈ all, RowOf rs types r) → all.Perm nodes.flatten →
        ∀ answers whole, Forall₂ (NodeAnswer idleFuncs rs) nodes answers →
          NodeAnswer idleFuncs rs all whole →
          ∃ out out', step.execute noDoubles fillOrder answers.flatten = .ok out ∧
            step.execute noDoubles fillOrder whole = .ok out' ∧
            (out.map Record.data).Perm (out'.map Record.data) := by
  have hstep : GroupStep.make [columnField "a"] countAndMax =
      .ok ⟨countAndMax, [(1, some .count), (2, some .max)], [0]⟩ := by
    rfl
  obtain ⟨rs, hrs, hsame⟩ := (distributed_aggregation (η := Nat) idleFuncs noDoubles fillOrder
    fillOrder countAndMax_query hstep).mpr (by decide +kernel)
  refine ⟨rs, _, hrs, hstep, ?_⟩
  intro types nodes all htypes hall hperm answers whole hanswers hwhole
  obtain ⟨out, out', hout, hout', hdata, -⟩ :=
    (hsame types nodes all htypes hall hperm).2 answers whole hanswers hwhole
  exact ⟨out, out', hout, hout', hdata⟩

/-- **A group field that is named three times.**  `GroupStep` takes
`SELECT a, COUNT (b) … GROUP BY a, a, a`; the array `grp_index` of `GroupRS` has room for
two places. -/
theorem group_list_overruns :
    GroupStep.make [columnField "a", columnField "a", columnField "a"]
        [columnField "a", functionField .count "COUNT" "b"] =
      .ok ⟨[columnField "a", functionField .count "COUNT" "b"], [(1, some .count)], [0, 0, 0]⟩ ∧
    GroupRS.make ([columnField "a", functionField .count "COUNT" "b"].map FieldDesc.selectField)
        ([columnField "a", columnField "a", columnField "a"].map fun g =>
          nameBytes g.fieldName) = none :=
  ⟨rfl, rfl⟩

end Mile.Merge
