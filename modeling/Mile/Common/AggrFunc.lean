/-
  Mile.Common.AggrFunc
  ────────────────────
  **AGGREGATE FUNCTIONS** (`common/AggrFunc.cpp`, `common/AggrFunc.h`).

  An aggregate is kept as one value, NULL if it has seen nothing.  `ComputeFunc` takes in a value
  of a row, `MergeFunc` another aggregate of the same function.
-/
import Mile.Common.Compare

namespace Mile.Common

open Lib List

/-! ## §1. The functions. -/

/-- `enum function_type`. -/
inductive FunctionType where
  | count
  | sum
  | max
  | min
  | countDistinct
  | squareSum
  | avg
  | var
  | std
  deriving Repr, DecidableEq

def FunctionType.toByte : FunctionType → UInt8
  | .count => 50
  | .sum => 51
  | .max => 52
  | .min => 53
  | .countDistinct => 54
  | .squareSum => 55
  | .avg => 56
  | .var => 57
  | .std => 58

/-- The cast `(enum function_type)byte`, for the bytes that are enumerators. -/
def FunctionType.ofByte? (b : UInt8) : Option FunctionType :=
  [FunctionType.count, .sum, .max, .min, .countDistinct, .squareSum, .avg, .var, .std].find?
    fun f => f.toByte == b

@[simp] theorem FunctionType.ofByte?_toByte (f : FunctionType) :
    FunctionType.ofByte? f.toByte = some f := by
  cases f <;> rfl

namespace AggrFunc

def countOf (v : LowData) : Nat := leAt v.data 0 8

/-- `Count`: the new value is not looked at. -/
protected def count (cur : LowData) : LowData :=
  if cur.len = 0 then { cur with type := .longlong, data := leBytes 8 1 }
  else { cur with data := leBytes 8 (countOf cur + 1) ++ cur.data.drop 8 }

/-- The first part of `MergeCount`: an empty value becomes a number. -/
def startCount (cur : LowData) : LowData :=
  if cur.len = 0 then { cur with type := .longlong, data := leBytes 8 0 } else cur

def addCount (cur new : LowData) : LowData :=
  if new.len > 0 then { cur with data := leBytes 8 (countOf cur + countOf new) ++ cur.data.drop 8 }
  else cur

/-- `MergeCount`. -/
def mergeCount (cur new : LowData) : LowData := addCount (startCount cur) new

/-- `Max` and `Min`: the new value is taken if the comparison gives `ret`. -/
def pick (ret : Int) (cur new : LowData) : LowData :=
  if cur.type = .notcomp then cur
  else if cur.IsNull then new
  else if new.IsNull then cur
  else if compareLd cur new = ret then new
  else if compareLd cur new = -2 then { cur with type := .notcomp, data := [] }
  else cur

/-- `Max`, and `MergeMax`. -/
protected def max (cur new : LowData) : LowData := pick (-1) cur new

/-- `Min`, and `MergeMin`. -/
protected def min (cur new : LowData) : LowData := pick 1 cur new

/-- The functions on doubles and on containers: `Sum`, which is `MergeSum` too,
and the others.  The lengths of their values are `uint32_t`. -/
structure OtherFuncs where
  sum : LowData → LowData → LowData
  other : FunctionType → LowData → LowData → LowData
  sum_len : ∀ cur new, (sum cur new).len < 2 ^ 32
  other_len : ∀ f cur new, (other f cur new).len < 2 ^ 32

variable (funcs : OtherFuncs)

/-- `ComputeFunc`; all functions but `Count` fail without a new value. -/
def computeFunc (f : FunctionType) (cur : LowData) (new : Option LowData) : Option LowData :=
  match f with
  | .count => some (AggrFunc.count cur)
  | .max => new.map (AggrFunc.max cur)
  | .min => new.map (AggrFunc.min cur)
  | .sum => new.map (funcs.sum cur)
  | f => new.map (funcs.other f cur)

/-- `MergeFunc`. -/
def mergeFunc (f : FunctionType) (cur new : LowData) : Option LowData :=
  match f with
  | .min => some (AggrFunc.min cur new)
  | .max => some (AggrFunc.max cur new)
  | .count => some (mergeCount cur new)
  | .sum => some (funcs.sum cur new)
  | _ => none

theorem pick_len {ret : Int} {cur new : LowData} (hcur : cur.len < 2 ^ 32)
    (hnew : new.len < 2 ^ 32) : (pick ret cur new).len < 2 ^ 32 := by
  unfold pick
  split_ifs <;> first | exact hcur | exact hnew | exact Nat.two_pow_pos 32

theorem mergeCount_len {cur : LowData} (hcur : cur.len < 2 ^ 32) (new : LowData) :
    (mergeCount cur new).len < 2 ^ 32 := by
  have hstart : (startCount cur).len < 2 ^ 32 := by
    unfold startCount
    split_ifs
    · show (leBytes 8 0).length < 2 ^ 32
      simp
    · exact hcur
  unfold mergeCount addCount
  split_ifs
  · show (leBytes 8 _ ++ (startCount cur).data.drop 8).length < 2 ^ 32
    rw [LowData.len] at hstart
    rw [length_append, leBytes_length, length_drop]
    omega
  · exact hstart

theorem computeFunc_len {f : FunctionType} {cur v : LowData} {new : Option LowData}
    (hcur : cur.len = 0) (hnew : ∀ w, new = some w → w.len < 2 ^ 32)
    (h : computeFunc funcs f cur new = some v) : v.len < 2 ^ 32 := by
  cases f
  case count =>
    rw [← Option.some.inj h, AggrFunc.count, if_pos hcur]
    show (leBytes 8 1).length < 2 ^ 32
    simp
  all_goals
    obtain ⟨w, rfl, rfl⟩ := Option.map_eq_some_iff.mp h
  case max | min => exact pick_len (by omega) (hnew w rfl)
  case sum => exact funcs.sum_len _ _
  all_goals exact funcs.other_len _ _ _

theorem mergeFunc_len {f : FunctionType} {cur new v : LowData} (hcur : cur.len < 2 ^ 32)
    (hnew : new.len < 2 ^ 32) (h : mergeFunc funcs f cur new = some v) : v.len < 2 ^ 32 := by
  cases f
  case count => exact Option.some.inj h ▸ mergeCount_len hcur new
  case max | min => exact Option.some.inj h ▸ pick_len hcur hnew
  case sum => exact Option.some.inj h ▸ funcs.sum_len _ _
  all_goals cases h

/-! ## §2. Counts. -/

/-- The value counts `n` things. -/
def Counts (v : LowData) (n : Nat) : Prop :=
  v.len = 0 ∧ n = 0 ∨ v.len = 8 ∧ leNat v.data = n % 2 ^ 64

theorem countOf_eq {v : LowData} (h : v.len = 8) : countOf v = leNat v.data := by
  unfold countOf leAt
  rw [drop_zero, take_of_length_le (le_of_eq h)]

theorem Counts.one {v : LowData} (h : v.len = 0) : Counts (AggrFunc.count v) 1 := by
  right
  rw [AggrFunc.count, if_pos h]
  exact ⟨rfl, rfl⟩

theorem Counts.merge {v w : LowData} {m n : Nat} (hv : Counts v m) (hw : Counts w n) :
    Counts (mergeCount v w) (m + n) := by
  right
  -- the current value becomes a number
  have hstart : (startCount v).len = 8 ∧ leNat (startCount v).data = m % 2 ^ 64 := by
    rcases hv with ⟨hzero, rfl⟩ | ⟨height, hnum⟩
    · rw [startCount, if_pos hzero]
      exact ⟨rfl, rfl⟩
    · rw [startCount, if_neg (by omega)]
      exact ⟨height, hnum⟩
  obtain ⟨hlen, hnum⟩ := hstart
  have hrest : (startCount v).data.drop 8 = [] := drop_of_length_le (le_of_eq hlen)
  unfold mergeCount addCount
  rcases hw with ⟨hzero, rfl⟩ | ⟨height, hwnum⟩
  · rw [if_neg (by omega)]
    exact ⟨hlen, hnum⟩
  · rw [if_pos (by omega)]
    refine ⟨by simp [LowData.len, hrest], ?_⟩
    show leNat (leBytes 8 _ ++ _) = _
    rw [hrest, append_nil, leNat_leBytes, countOf_eq hlen, countOf_eq height, hnum, hwnum]
    omega

/-! ## §3. Extreme values. -/

def OfColumn (t : FieldType) (w : LowData) : Prop := w.type = .null ∨ w.type = t

/-- The value is the first in an order among the values that are not NULL. -/
def Extreme (t : FieldType) (before : Int → Int → Prop) (v : LowData) (vals : List LowData) :
    Prop :=
  (v.IsNull ∧ v.type ≠ .notcomp ∧ ∀ w ∈ vals, w.IsNull) ∨
    ¬v.IsNull ∧ v.type = t ∧ (∃ w ∈ vals, ¬w.IsNull ∧ integerAt t w.data = integerAt t v.data) ∧
      ∀ w ∈ vals, ¬w.IsNull → before (integerAt t v.data) (integerAt t w.data)

def IsMax (t : FieldType) : LowData → List LowData → Prop := Extreme t (· ≥ ·)

def IsMin (t : FieldType) : LowData → List LowData → Prop := Extreme t (· ≤ ·)

section Extreme

variable {t : FieldType} {before : Int → Int → Prop} {v w : LowData} {vs ws : List LowData}

theorem Extreme.append_null (h : Extreme t before v vs) (hnull : ∀ w ∈ ws, w.IsNull) :
    Extreme t before v (vs ++ ws) := by
  rcases h with ⟨hv, htype, hall⟩ | ⟨hv, htype, ⟨x, hx, hxv⟩, hall⟩
  · exact .inl ⟨hv, htype, forall_mem_append.mpr ⟨hall, hnull⟩⟩
  · refine .inr ⟨hv, htype, ⟨x, mem_append_left _ hx, hxv⟩, ?_⟩
    exact forall_mem_append.mpr ⟨hall, fun w hw hne => absurd (hnull w hw) hne⟩

theorem Extreme.null_append (h : Extreme t before w ws) (hnull : ∀ v ∈ vs, v.IsNull) :
    Extreme t before w (vs ++ ws) := by
  rcases h with ⟨hw, htype, hall⟩ | ⟨hw, htype, ⟨x, hx, hxw⟩, hall⟩
  · exact .inl ⟨hw, htype, forall_mem_append.mpr ⟨hnull, hall⟩⟩
  · refine .inr ⟨hw, htype, ⟨x, mem_append_right _ hx, hxw⟩, ?_⟩
    exact forall_mem_append.mpr ⟨fun v hv hne => absurd (hnull v hv) hne, hall⟩

theorem Extreme.single (hint : t.IsInteger) (hrefl : ∀ a, before a a) (hw : OfColumn t w) :
    Extreme t before w [w] := by
  by_cases hnull : w.IsNull
  · refine .inl ⟨hnull, ?_, by simpa using hnull⟩
    rcases hw with h | h <;> rw [h]
    · decide
    · rintro rfl
      exact absurd hint (by decide)
  · refine .inr ⟨hnull, hw.resolve_left fun h => hnull (.inl h), ⟨w, by simp [hnull]⟩, ?_⟩
    intro u hu _
    rw [mem_singleton.mp hu]
    exact hrefl _

theorem Extreme.nil (hnull : v.IsNull) (htype : v.type ≠ .notcomp) : Extreme t before v [] :=
  .inl ⟨hnull, htype, forall_mem_nil _⟩

/-- The extreme of two parts is one of the two extremes. -/
theorem Extreme.merge {ret : Int} (hint : t.IsInteger)
    (htake : ∀ a b : Int, comp a b = ret → before b a)
    (hkeep : ∀ a b : Int, comp a b ≠ ret → before a b)
    (htrans : ∀ a b c : Int, before a b → before b c → before a c)
    (hv : Extreme t before v vs) (hw : Extreme t before w ws) :
    Extreme t before (pick ret v w) (vs ++ ws) := by
  have hnot : t ≠ .notcomp := by
    rintro rfl
    exact absurd hint (by decide)
  unfold pick
  rcases hv with ⟨hnull, htype, hall⟩ | ⟨hnull, htype, hex, hall⟩
  · rw [if_neg htype, if_pos hnull]
    exact hw.null_append hall
  rw [if_neg (htype ▸ hnot), if_neg hnull]
  rcases hw with ⟨hwnull, hwtype, hwall⟩ | ⟨hwnull, hwtype, hwex, hwall⟩
  · rw [if_pos hwnull]
    exact Extreme.append_null (.inr ⟨hnull, htype, hex, hall⟩) hwall
  have hcmp : compareLd v w = comp (integerAt t v.data) (integerAt t w.data) := by
    rw [compareLd_typed hnull hwnull (htype.trans hwtype.symm), htype, compareTyped_integer hint]
  rw [if_neg hwnull, hcmp]
  obtain ⟨x, hx, hxv⟩ := hex
  obtain ⟨y, hy, hyw⟩ := hwex
  by_cases hc : comp (integerAt t v.data) (integerAt t w.data) = ret
  · -- the new value stands before the current one
    rw [if_pos hc]
    refine .inr ⟨hwnull, hwtype, ⟨y, mem_append_right _ hy, hyw⟩, ?_⟩
    refine forall_mem_append.mpr ⟨fun u hu hne => ?_, hwall⟩
    exact htrans _ _ _ (htake _ _ hc) (hall u hu hne)
  · rw [if_neg hc, if_neg comp_ne_neg_two]
    refine .inr ⟨hnull, htype, ⟨x, mem_append_left _ hx, hxv⟩, ?_⟩
    refine forall_mem_append.mpr ⟨hall, fun u hu hne => ?_⟩
    exact htrans _ _ _ (hkeep _ _ hc) (hwall u hu hne)

theorem IsMax.merge (hint : t.IsInteger) (hv : IsMax t v vs) (hw : IsMax t w ws) :
    IsMax t (AggrFunc.max v w) (vs ++ ws) := by
  refine Extreme.merge hint ?_ ?_ (fun a b c hab hbc => le_trans hbc hab) hv hw
  · intro a b h
    exact (comp_eq_neg_one.mp h).le
  · intro a b h
    exact not_lt.mp fun hlt => h (comp_eq_neg_one.mpr hlt)

theorem IsMin.merge (hint : t.IsInteger) (hv : IsMin t v vs) (hw : IsMin t w ws) :
    IsMin t (AggrFunc.min v w) (vs ++ ws) := by
  refine Extreme.merge hint ?_ ?_ (fun a b c hab hbc => le_trans hab hbc) hv hw
  · intro a b h
    exact (comp_eq_one.mp h).le
  · intro a b h
    exact not_lt.mp fun hlt => h (comp_eq_one.mpr hlt)

end Extreme

/-! ## §4. The order of the rows. -/

/-- `ComputeFunc` over the values of rows. -/
def computeAll (f : FunctionType) (init : LowData) (rows : List LowData) : Option LowData :=
  rows.foldlM (fun cur v => computeFunc funcs f cur (some v)) init

/-- `MergeFunc` over the aggregates of parts. -/
def mergeAll (f : FunctionType) (init : LowData) (parts : List (List LowData)) : Option LowData :=
  parts.foldlM (fun cur part => (computeAll funcs f init part).bind (mergeFunc funcs f cur)) init

/-- Type and bytes of a value, without the name of its column. -/
def content (v : LowData) : FieldType × Bytes := (v.type, v.data)

/-- A value of type `t`, or a NULL; an integer has the bytes of its type. -/
abbrev TypedOrNull (t : FieldType) (v : LowData) : Prop :=
  v.type ≠ .notcomp ∧ (v.IsNull ∨ v.type = t ∧ (t.IsInteger → v.len = t.unitSize))

/-- A value that is not of a floating type: a NULL, a text, or an integer with
the bytes of its type. -/
abbrev Plain (v : LowData) : Prop :=
  v.type ≠ .notcomp ∧ (v.IsNull ∨ (v.type.IsInteger ∨ v.type.IsText) ∧
    (v.type.IsInteger → v.len = v.type.unitSize))

/-- The types of the values that are not NULL. -/
def typesOf (vals : List LowData) : List FieldType :=
  (vals.filter fun v => ¬v.IsNull).map LowData.type

theorem typesOf_cons_null {v : LowData} {vals : List LowData} (hv : v.IsNull) :
    typesOf (v :: vals) = typesOf vals := by
  rw [typesOf, filter_cons_of_neg (by rw [decide_eq_true_iff]; exact not_not.mpr hv)]
  rfl

theorem typesOf_cons {v : LowData} {vals : List LowData} (hv : ¬v.IsNull) :
    typesOf (v :: vals) = v.type :: typesOf vals := by
  rw [typesOf, filter_cons_of_pos (by rw [decide_eq_true_iff]; exact hv)]
  rfl

/-- The values that are not NULL have one type, and if all are NULL, they are like
the initial value; or just two values are not NULL. -/
def OrderFree (init : LowData) (vals : List LowData) : Prop :=
  ((∀ t ∈ typesOf vals, ∀ u ∈ typesOf vals, t = u) ∧
      (typesOf vals = [] → ∀ v ∈ vals, content v = content init)) ∨
    (typesOf vals).length = 2

/-- Every order of the rows and every split into parts gives the same value. -/
def OneAnswer (compute : List LowData → Option LowData)
    (merge : List (List LowData) → Option LowData) (vals : List LowData) : Prop :=
  ∃ c, (∀ rows, rows ~ vals → (compute rows).map content = some c) ∧
    ∀ parts, parts.flatten ~ vals → (merge parts).map content = some c

/-- `Max` or `Min` over rows. -/
def pickRows (ret : Int) (init : LowData) (rows : List LowData) : Option LowData :=
  some (rows.foldl (pick ret) init)

/-- `Max` or `Min` over rows in parts. -/
def pickParts (ret : Int) (init : LowData) (parts : List (List LowData)) : Option LowData :=
  some ((parts.map fun part => part.foldl (pick ret) init).foldl (pick ret) init)

theorem orderKey_inj {t : FieldType} {a b : Bytes} (ha : t.IsInteger → a.length = t.unitSize)
    (hb : t.IsInteger → b.length = t.unitSize) (h : orderKey t a = orderKey t b) : a = b := by
  unfold orderKey at h
  by_cases hint : t.IsInteger
  · have hne : ∀ {d : Bytes}, d.length = t.unitSize → d ≠ [] := by
      rintro d hd rfl
      exact hint.unitSize_pos.ne hd
    simp only [if_pos hint, if_neg (hne (ha hint)), if_neg (hne (hb hint))] at h
    exact number_inj hint (ha hint) (hb hint) (.inr (cons.inj h).1)
  · simp only [if_neg hint] at h
    exact (map_injective_iff.mpr fun _ _ => toSigned_byte_inj) h

section Rank

variable {κ : Type} [LinearOrder κ] (g : List Int → κ) (t : FieldType) {ret : Int}
  {v w init : LowData} {vs : List LowData}

/-- The place of a value in the order, NULL first. -/
def rank (v : LowData) : WithBot κ := if v.IsNull then ⊥ else g (orderKey t v.data)

def topRank (vs : List LowData) : WithBot κ := (vs.map (rank g t) : Multiset (WithBot κ)).sup

variable {g t}

omit [LinearOrder κ] in
theorem rank_of_not_isNull (hv : ¬v.IsNull) : rank g t v = g (orderKey t v.data) := if_neg hv

omit [LinearOrder κ] in
theorem rank_eq_bot : rank g t v = ⊥ ↔ v.IsNull := by
  by_cases hv : v.IsNull <;> simp [rank, hv]

theorem topRank_cons : topRank g t (v :: vs) = rank g t v ⊔ topRank g t vs := by
  simp [topRank, ← Multiset.cons_coe]

omit [LinearOrder κ] in
theorem content_eq_of_rank (hinj : Function.Injective g) (hv : TypedOrNull t v)
    (hw : TypedOrNull t w) (hnull : ¬v.IsNull) (h : rank g t v = rank g t w) :
    content v = content w := by
  have hwnull : ¬w.IsNull := fun hwn => hnull (rank_eq_bot.mp (h.trans (rank_eq_bot.mpr hwn)))
  rw [rank_of_not_isNull hnull, rank_of_not_isNull hwnull, WithBot.coe_inj] at h
  obtain ⟨hvt, hvlen⟩ := hv.2.resolve_left hnull
  obtain ⟨hwt, hwlen⟩ := hw.2.resolve_left hwnull
  exact Prod.ext (hvt.trans hwt.symm) (orderKey_inj hvlen hwlen (hinj h))

variable (hg : ∀ a b : List Int, comp a b = ret ↔ g a < g b) (ht : t.IsInteger ∨ t.IsText)

include hg ht

theorem pick_rank (hv : TypedOrNull t v) (hw : TypedOrNull t w) :
    (pick ret v w = v ∨ pick ret v w = w) ∧ rank g t (pick ret v w) = rank g t v ⊔ rank g t w := by
  unfold pick
  rw [if_neg hv.1]
  by_cases hvn : v.IsNull
  · rw [if_pos hvn]
    exact ⟨.inr rfl, by simp [rank, hvn]⟩
  rw [if_neg hvn]
  by_cases hwn : w.IsNull
  · rw [if_pos hwn]
    exact ⟨.inl rfl, by simp [rank, hwn]⟩
  have hcmp := compareLd_eq_comp ht (hv.2.resolve_left hvn).1 (hw.2.resolve_left hwn).1
  rw [if_neg hwn, hcmp, if_neg (comp_ne_neg_two : comp _ _ ≠ -2)]
  split_ifs with hc <;> rw [hg] at hc <;>
    rw [rank_of_not_isNull hvn, rank_of_not_isNull hwn]
  · exact ⟨.inr rfl, (sup_eq_right.mpr (WithBot.coe_le_coe.mpr hc.le)).symm⟩
  · exact ⟨.inl rfl, (sup_eq_left.mpr (WithBot.coe_le_coe.mpr (not_lt.mp hc))).symm⟩

/-- **A fold** stands at the top rank, and is one of the values. -/
theorem foldl_pick {P : LowData → Prop} (hP : ∀ v, P v → TypedOrNull t v) (hvs : ∀ w ∈ vs, P w)
    (hv : P v) : P (vs.foldl (pick ret) v) ∧
      rank g t (vs.foldl (pick ret) v) = rank g t v ⊔ topRank g t vs := by
  induction vs generalizing v with
  | nil => exact ⟨hv, by simp [topRank]⟩
  | cons w vs ih =>
    obtain ⟨hw, hvs⟩ := forall_mem_cons.mp hvs
    obtain ⟨hone, hrank⟩ := pick_rank hg ht (hP v hv) (hP w hw)
    have hpick : P (pick ret v w) := by
      rcases hone with h | h <;> rw [h]
      · exact hv
      · exact hw
    rw [foldl_cons, topRank_cons, ← sup_assoc, ← hrank]
    exact ih hvs hpick

/-- Values of one type: the answer is the value of the top rank. -/
theorem pick_order_free (hinj : Function.Injective g) (hinit : init.IsNull ∧ init.type ≠ .notcomp)
    (htyped : ∀ v ∈ vs, TypedOrNull t v)
    (hnulls : (∀ v ∈ vs, v.IsNull) → ∀ v ∈ vs, content v = content init) :
    OneAnswer (pickRows ret init) (pickParts ret init) vs := by
  let P (v : LowData) : Prop := TypedOrNull t v ∧ ((∀ w ∈ vs, w.IsNull) → content v = content init)
  have hfold : ∀ rows, (∀ v ∈ rows, P v) → P (rows.foldl (pick ret) init) ∧
      rank g t (rows.foldl (pick ret) init) = topRank g t rows := by
    intro rows hrows
    have h := foldl_pick hg ht (fun _ => And.left) hrows ⟨⟨hinit.2, .inl hinit.1⟩, fun _ => rfl⟩
    rwa [rank_eq_bot.mpr hinit.1, bot_sup_eq] at h
  -- the parts have the top ranks of their rows
  have hparts : ∀ parts : List (List LowData), (∀ v ∈ parts.flatten, P v) →
      (∀ r ∈ parts.map fun part => part.foldl (pick ret) init, P r) ∧
      topRank g t (parts.map fun part => part.foldl (pick ret) init) =
        topRank g t parts.flatten := by
    intro parts hall
    induction parts with
    | nil => exact ⟨forall_mem_nil _, rfl⟩
    | cons part parts ih =>
      obtain ⟨hpart, hrest⟩ := forall_mem_append.mp hall
      obtain ⟨hres, hrank⟩ := hfold part hpart
      refine ⟨forall_mem_cons.mpr ⟨hres, (ih hrest).1⟩, ?_⟩
      rw [map_cons, topRank_cons, hrank, (ih hrest).2]
      simp [topRank, ← Multiset.coe_add]
  -- a value of the top rank is determined
  have hone : ∀ rows r, rows ~ vs → P r → rank g t r = topRank g t rows →
      content r = content (vs.foldl (pick ret) init) := by
    intro rows r hperm hr hrank
    obtain ⟨hlast, htop⟩ := hfold vs fun v hv => ⟨htyped v hv, fun h => hnulls h v hv⟩
    have hsame : topRank g t rows = topRank g t vs :=
      congrArg Multiset.sup (Multiset.coe_eq_coe.mpr (hperm.map _))
    by_cases hall : ∀ w ∈ vs, w.IsNull
    · rw [hr.2 hall, hlast.2 hall]
    refine content_eq_of_rank hinj hr.1 hlast.1 (fun hnull => hall fun w hw => ?_)
      (hrank.trans (hsame.trans htop.symm))
    have hle : rank g t w ≤ topRank g t vs := Multiset.le_sup (mem_map_of_mem hw)
    rw [← hsame, ← hrank, rank_eq_bot.mpr hnull] at hle
    exact rank_eq_bot.mp (le_bot_iff.mp hle)
  have hP : ∀ rows, rows ~ vs → ∀ v ∈ rows, P v := fun rows hperm v hv =>
    have hmem := hperm.mem_iff.mp hv
    ⟨htyped v hmem, fun h => hnulls h v hmem⟩
  refine ⟨content (vs.foldl (pick ret) init), fun rows hperm => congrArg some ?_,
    fun parts hperm => congrArg some ?_⟩
  · obtain ⟨hres, hrank⟩ := hfold rows (hP rows hperm)
    exact hone rows _ hperm hres hrank
  · obtain ⟨hall, htop⟩ := hparts parts (hP _ hperm)
    obtain ⟨hres, hrank⟩ := hfold _ hall
    exact hone parts.flatten _ hperm hres (hrank.trans htop)

end Rank

/-! ## §5. Values of several types. -/

section Kinds

variable {ret : Int} {v w init : LowData} {ts us : List FieldType}

/-- What values of these types come to: a NULL, a value of their one type, or
`NOTCOMP`. -/
def Kind (v : LowData) (ts : List FieldType) : Prop :=
  (ts = [] ∧ v.IsNull ∧ v.type ≠ .notcomp) ∨
    (∃ t, ts ≠ [] ∧ (∀ u ∈ ts, u = t) ∧ ¬v.IsNull ∧ v.type = t) ∨
    (∃ t ∈ ts, ∃ u ∈ ts, t ≠ u) ∧ content v = (.notcomp, [])

theorem Kind.notcomp (h : Kind v ts) (hts : ∃ t ∈ ts, ∃ u ∈ ts, t ≠ u) :
    content v = (.notcomp, []) := by
  obtain ⟨t, ht, u, hu, hne⟩ := hts
  rcases h with ⟨rfl, -, -⟩ | ⟨s, -, hall, -, -⟩ | ⟨-, hv⟩
  · cases ht
  · exact absurd ((hall t ht).trans (hall u hu).symm) hne
  · exact hv

theorem Kind.of_nil (h : Kind v []) : v.IsNull ∧ v.type ≠ .notcomp := by
  rcases h with ⟨-, hv⟩ | ⟨t, hne, -⟩ | ⟨⟨t, ht, -⟩, -⟩
  · exact hv
  · exact absurd rfl hne
  · cases ht

theorem pick_null (hv : v.IsNull ∧ v.type ≠ .notcomp) : AggrFunc.pick ret v w = w := by
  rw [AggrFunc.pick, if_neg hv.2, if_pos hv.1]

theorem kind_of_plain (hv : Plain v) : Kind v (typesOf [v]) := by
  by_cases hnull : v.IsNull
  · exact .inl ⟨typesOf_cons_null hnull, hnull, hv.1⟩
  · have htypes : typesOf [v] = [v.type] := typesOf_cons hnull
    exact .inr (.inl ⟨v.type, by simp [htypes], by simp [htypes], hnull, rfl⟩)

theorem compareLd_of_type_ne (hv : ¬v.IsNull) (hw : ¬w.IsNull) (hne : v.type ≠ w.type) :
    compareLd v w = -2 := by
  unfold compareLd
  rw [if_neg (fun h => hv h.1), if_neg hv, if_neg hw, if_pos hne]

/-- One step: only a value that could not be compared is lost, when it comes
behind one that could. -/
theorem Kind.pick (hret : ret ≠ -2) (hv : Kind v ts) (hw : Kind w us)
    (hplain : ∀ t ∈ ts, t.IsInteger ∨ t.IsText)
    (hok : ts = [] ∨ ∀ t ∈ us, ∀ u ∈ us, t = u) : Kind (AggrFunc.pick ret v w) (ts ++ us) := by
  unfold AggrFunc.pick
  rcases hv with ⟨rfl, hnull, htype⟩ | ⟨t, hne, hall, hnull, rfl⟩ | ⟨⟨t, ht, u, hu, hne⟩, hv⟩
  · rw [if_neg htype, if_pos hnull]
    exact hw
  · have ht : v.type.IsInteger ∨ v.type.IsText := by
      obtain ⟨u, hu⟩ := exists_mem_of_ne_nil _ hne
      exact hall u hu ▸ hplain u hu
    have htype : v.type ≠ .notcomp := by
      intro h
      rw [h] at ht
      exact absurd ht (by unfold FieldType.IsText; decide)
    rw [if_neg htype, if_neg hnull]
    rcases hw with ⟨rfl, hwnull, -⟩ | ⟨u, hune, huall, hwnull, rfl⟩ | ⟨⟨x, hx, y, hy, hxy⟩, -⟩
    · rw [if_pos hwnull, append_nil]
      exact .inr (.inl ⟨_, hne, hall, hnull, rfl⟩)
    · rw [if_neg hwnull]
      by_cases heq : v.type = w.type
      · -- one type: the result is one of the two
        have hall' : ∀ u ∈ ts ++ us, u = v.type :=
          forall_mem_append.mpr ⟨hall, fun u hu => (huall u hu).trans heq.symm⟩
        rw [compareLd_eq_comp ht rfl heq.symm, if_neg (comp_ne_neg_two : comp _ _ ≠ -2)]
        split_ifs
        · exact .inr (.inl ⟨_, by simp [hne], hall', hwnull, heq.symm⟩)
        · exact .inr (.inl ⟨_, by simp [hne], hall', hnull, rfl⟩)
      · rw [compareLd_of_type_ne hnull hwnull heq, if_neg hret.symm, if_pos rfl]
        obtain ⟨a, ha⟩ := exists_mem_of_ne_nil _ hne
        obtain ⟨b, hb⟩ := exists_mem_of_ne_nil _ hune
        refine .inr (.inr ⟨⟨a, mem_append_left _ ha, b, mem_append_right _ hb, ?_⟩, rfl⟩)
        rw [hall a ha, huall b hb]
        exact heq
    · exact absurd (hok.resolve_left hne x hx y hy) hxy
  · have htype : v.type = .notcomp := congrArg Prod.fst hv
    rw [if_pos htype]
    exact .inr (.inr ⟨⟨t, mem_append_left _ ht, u, mem_append_left _ hu, hne⟩, hv⟩)

/-- A fold, where at each step no value that could not be compared is lost. -/
theorem foldl_kind (hret : ret ≠ -2) {rs : List (LowData × List FieldType)}
    (hrs : ∀ r ∈ rs, Kind r.1 r.2)
    (hplain : ∀ t ∈ ts ++ rs.flatMap Prod.snd, t.IsInteger ∨ t.IsText)
    (hok : (∀ r ∈ rs, ∀ t ∈ r.2, ∀ u ∈ r.2, t = u) ∨ (ts ++ rs.flatMap Prod.snd).length ≤ 2)
    (hv : Kind v ts) :
    Kind ((rs.map Prod.fst).foldl (AggrFunc.pick ret) v) (ts ++ rs.flatMap Prod.snd) := by
  induction rs generalizing v ts with
  | nil => simpa using hv
  | cons r rs ih =>
    obtain ⟨hr, hrs⟩ := forall_mem_cons.mp hrs
    rw [flatMap_cons, ← append_assoc] at hplain hok ⊢
    have hstep : ts = [] ∨ ∀ t ∈ r.2, ∀ u ∈ r.2, t = u := by
      rcases hok with hall | hshort
      · exact .inr (hall r mem_cons_self)
      · -- two types behind another one are three values
        by_contra hno
        obtain ⟨hts, hr2⟩ := not_or.mp hno
        have hts1 : 0 < ts.length := length_pos_iff.mpr hts
        have hr1 : 1 < r.2.length := by
          by_contra hle
          refine hr2 fun t ht u hu => ?_
          obtain ⟨x, hx⟩ : ∃ x, r.2 = [x] := by
            have hpos := length_pos_of_mem ht
            exact length_eq_one_iff.mp (by omega)
          rw [hx, mem_singleton] at ht hu
          rw [ht, hu]
        rw [length_append, length_append] at hshort
        omega
    refine ih hrs hplain (hok.imp_left fun h q hq => h q (mem_cons_of_mem _ hq)) ?_
    exact hv.pick hret hr (fun t ht => hplain t (by simp [ht])) hstep

end Kinds

section Several

variable {ret : Int} {init : LowData} {vals : List LowData}

theorem typesOf_append (vs ws : List LowData) : typesOf (vs ++ ws) = typesOf vs ++ typesOf ws := by
  simp [typesOf]

theorem typesOf_perm {vs ws : List LowData} (h : vs ~ ws) : typesOf vs ~ typesOf ws :=
  (h.filter _).map _

theorem mem_typesOf {t : FieldType} :
    t ∈ typesOf vals ↔ ∃ v ∈ vals, ¬v.IsNull ∧ v.type = t := by
  simp [typesOf, and_assoc]

theorem plain_types (hvals : ∀ v ∈ vals, Plain v) : ∀ t ∈ typesOf vals, t.IsInteger ∨ t.IsText := by
  intro t ht
  obtain ⟨v, hv, hnull, rfl⟩ := mem_typesOf.mp ht
  exact ((hvals v hv).2.resolve_left hnull).1

variable (hret : ret ≠ -2) (hinit : init.IsNull ∧ init.type ≠ .notcomp)

include hret hinit

/-- **Rows of any types** come to a value of their kind. -/
theorem rows_kind (hvals : ∀ v ∈ vals, Plain v) :
    Kind (vals.foldl (pick ret) init) (typesOf vals) := by
  have htypes : (vals.map fun v => (v, typesOf [v])).flatMap Prod.snd = typesOf vals := by
    rw [flatMap_map]
    induction vals with
    | nil => rfl
    | cons v vs ih =>
      rw [flatMap_cons, ih (forall_mem_cons.mp hvals).2]
      exact (typesOf_append [v] vs).symm
  have h := @foldl_kind ret init [] hret (vals.map fun v => (v, typesOf [v]))
    (by simpa using fun v hv => kind_of_plain (hvals v hv))
    (by rw [nil_append, htypes]; exact plain_types hvals)
    (.inl (by
      intro r hr t ht u hu
      obtain ⟨v, -, rfl⟩ := mem_map.mp hr
      obtain ⟨x, hx, -, rfl⟩ := mem_typesOf.mp ht
      obtain ⟨y, hy, -, rfl⟩ := mem_typesOf.mp hu
      rw [mem_singleton.mp hx, mem_singleton.mp hy]))
    (.inl ⟨rfl, hinit⟩)
  rw [nil_append, htypes, map_map] at h
  simpa [Function.comp_def] using h

/-- Two values in parts come to a value of their kind. -/
theorem parts_kind {parts : List (List LowData)} (hvals : ∀ v ∈ parts.flatten, Plain v)
    (htwo : (typesOf parts.flatten).length ≤ 2) :
    Kind ((parts.map fun part => part.foldl (pick ret) init).foldl (pick ret) init)
      (typesOf parts.flatten) := by
  have htypes : (parts.map fun part => (part.foldl (pick ret) init, typesOf part)).flatMap
      Prod.snd = typesOf parts.flatten := by
    rw [flatMap_map]
    clear hvals htwo
    induction parts with
    | nil => rfl
    | cons part parts ih => rw [flatMap_cons, ih, flatten_cons, typesOf_append]
  have h := @foldl_kind ret init [] hret
    (parts.map fun part => (part.foldl (pick ret) init, typesOf part))
    (by
      intro r hr
      obtain ⟨part, hpart, rfl⟩ := mem_map.mp hr
      exact rows_kind hret hinit fun v hv => hvals v (mem_flatten.mpr ⟨part, hpart, hv⟩))
    (by rw [nil_append, htypes]; exact plain_types hvals)
    (.inr (by rw [nil_append, htypes]; exact htwo))
    (.inl ⟨rfl, hinit⟩)
  rw [nil_append, htypes, map_map] at h
  exact h

/-- NULLs that are not like the initial value have several answers: an empty part
behind them gives the initial value. -/
theorem nulls_like_init (hvals : ∀ v ∈ vals, Plain v) (hnull : typesOf vals = [])
    (hone : OneAnswer (pickRows ret init) (pickParts ret init) vals) :
    ∀ v ∈ vals, content v = content init := by
  obtain ⟨c, hrows, hparts⟩ := hone
  intro v hv
  obtain ⟨vs, hperm⟩ : ∃ vs, vs ++ [v] ~ vals :=
    ⟨vals.erase v, (perm_append_singleton _ _).trans (perm_cons_erase hv).symm⟩
  have hnone : typesOf vs ++ typesOf [v] = [] := by
    rw [← typesOf_append]
    exact (hnull ▸ typesOf_perm hperm).eq_nil
  obtain ⟨hvs, hv'⟩ := append_eq_nil_iff.mp hnone
  have hvnull : v.IsNull := by
    by_contra hno
    exact absurd (mem_typesOf.mpr ⟨v, mem_singleton_self v, hno, rfl⟩) (by simp [hv'])
  -- the last NULL stays
  have hcur := rows_kind hret hinit fun w hw => hvals w (hperm.mem_iff.mp (mem_append_left _ hw))
  rw [hvs] at hcur
  have hlast : (vs ++ [v]).foldl (pick ret) init = v := by
    rw [foldl_append, foldl_cons, foldl_nil, pick, if_neg hcur.of_nil.2, if_pos hcur.of_nil.1]
  have hrow := hrows _ hperm
  have hpart := hparts [vs ++ [v], []] (by simpa using hperm)
  rw [pickRows, hlast] at hrow
  rw [pickParts, map_cons, map_singleton, hlast, foldl_cons, foldl_cons, foldl_nil, foldl_nil,
    pick_null hinit, pick_null ⟨hvnull, (hvals v hv).1⟩] at hpart
  exact Option.some.inj (hrow.trans hpart.symm)

/-- More than two values of several types have several answers: behind one of
them, a part that could not be compared is lost. -/
theorem two_of_several (hvals : ∀ v ∈ vals, Plain v)
    (hone : OneAnswer (pickRows ret init) (pickParts ret init) vals)
    (hseveral : ∃ t ∈ typesOf vals, ∃ u ∈ typesOf vals, t ≠ u) : (typesOf vals).length = 2 := by
  obtain ⟨c, hrows, hparts⟩ := hone
  have hnot := (rows_kind hret hinit hvals).notcomp hseveral
  have hc : (FieldType.notcomp, []) = c := by
    have hrow := hrows _ (Perm.refl _)
    rw [pickRows, Option.map_some, hnot] at hrow
    exact Option.some.inj hrow
  obtain ⟨t, ht, u, hu, hne⟩ := hseveral
  obtain ⟨a, ha, hanull, rfl⟩ := mem_typesOf.mp ht
  obtain ⟨b, hb, hbnull, rfl⟩ := mem_typesOf.mp hu
  have hab : b ∈ vals.erase a := by
    refine (mem_erase_of_ne ?_).mpr hb
    rintro rfl
    exact hne rfl
  have hperm : vals ~ a :: b :: (vals.erase a).erase b :=
    (perm_cons_erase ha).trans ((perm_cons_erase hab).cons a)
  have htypes := typesOf_perm hperm
  by_contra hlen
  -- a third value
  obtain ⟨x, hx, hxnull⟩ : ∃ x ∈ (vals.erase a).erase b, ¬x.IsNull := by
    by_contra hno
    have hnil : typesOf ((vals.erase a).erase b) = [] := by
      refine eq_nil_iff_forall_not_mem.mpr fun t ht => ?_
      obtain ⟨x, hx, hxnull, -⟩ := mem_typesOf.mp ht
      exact hno ⟨x, hx, hxnull⟩
    have hcount := htypes.length_eq
    rw [typesOf_cons hanull, typesOf_cons hbnull, hnil] at hcount
    exact hlen hcount
  have hsplit : [[x], a :: b :: ((vals.erase a).erase b).erase x].flatten ~ vals := by
    have hrest := ((perm_cons_erase hx).cons b).cons a
    have hswap : x :: a :: b :: ((vals.erase a).erase b).erase x ~
        a :: b :: x :: ((vals.erase a).erase b).erase x :=
      (Perm.swap _ _ _).trans ((Perm.swap _ _ _).cons a)
    simpa using hswap.trans (hrest.symm.trans hperm.symm)
  have hxplain : Plain x := hvals x (hsplit.mem_iff.mp (by simp))
  have hrest := (@rows_kind ret init (a :: b :: ((vals.erase a).erase b).erase x) hret hinit
    fun w hw => hvals w (hsplit.mem_iff.mp (by simpa using .inr (by simpa using hw)))).notcomp
      ⟨a.type, mem_typesOf.mpr ⟨a, by simp, hanull, rfl⟩, b.type,
        mem_typesOf.mpr ⟨b, by simp, hbnull, rfl⟩, hne⟩
  have hlost := congrArg (fun c => c.2.length) hrest
  have hpart := hparts _ hsplit
  rw [pickParts, map_cons, map_singleton, foldl_cons, foldl_cons, foldl_nil, foldl_cons (l := []),
    foldl_nil, pick_null hinit, pick_null hinit, pick, if_neg hxplain.1, if_neg hxnull,
    if_pos (.inr hlost)] at hpart
  rw [← hc] at hpart
  exact hxplain.1 (congrArg Prod.fst (Option.some.inj hpart))

end Several

/-- One answer for all partitions and orders of the rows. -/
theorem oneAnswer_iff {κ : Type} [LinearOrder κ] {g : List Int → κ} {ret : Int}
    (hg : ∀ a b : List Int, comp a b = ret ↔ g a < g b) (hinj : Function.Injective g)
    (hret : ret ≠ -2) {init : LowData} (hinit : init.IsNull ∧ init.type ≠ .notcomp)
    {vals : List LowData} (hvals : ∀ v ∈ vals, Plain v) :
    OneAnswer (pickRows ret init) (pickParts ret init) vals ↔ OrderFree init vals := by
  have htypes := plain_types hvals
  by_cases hsame : ∀ t ∈ typesOf vals, ∀ u ∈ typesOf vals, t = u
  · -- one type, or no value that is not NULL
    have hone : (typesOf vals = [] → ∀ v ∈ vals, content v = content init) →
        OneAnswer (pickRows ret init) (pickParts ret init) vals := by
      intro hnulls
      obtain ⟨t, ht, hall⟩ : ∃ t : FieldType, (t.IsInteger ∨ t.IsText) ∧
          ∀ u ∈ typesOf vals, u = t := by
        cases hts : typesOf vals with
        | nil => exact ⟨.tiny, .inl (by decide), nofun⟩
        | cons t ts =>
          rw [hts] at hsame htypes
          exact ⟨t, htypes t mem_cons_self, fun u hu => hsame u hu t mem_cons_self⟩
      refine pick_order_free hg ht hinj hinit (fun v hv => ⟨(hvals v hv).1, ?_⟩) fun hnull => ?_
      · by_cases hnull : v.IsNull
        · exact .inl hnull
        · have htype := hall v.type (mem_typesOf.mpr ⟨v, hv, hnull, rfl⟩)
          exact .inr ⟨htype, htype ▸ ((hvals v hv).2.resolve_left hnull).2⟩
      · refine hnulls (eq_nil_iff_forall_not_mem.mpr fun t ht => ?_)
        obtain ⟨v, hv, hne, -⟩ := mem_typesOf.mp ht
        exact hne (hnull v hv)
    constructor
    · exact fun h => .inl ⟨hsame, fun hnull => nulls_like_init hret hinit hvals hnull h⟩
    · rintro (⟨-, hnulls⟩ | htwo)
      · exact hone hnulls
      · exact hone fun hnil => absurd htwo (by simp [hnil])
  · have hseveral : ∃ t ∈ typesOf vals, ∃ u ∈ typesOf vals, t ≠ u := by
      simpa only [not_forall, exists_prop] using hsame
    constructor
    · exact fun h => .inr (two_of_several hret hinit hvals h hseveral)
    · rintro (⟨hone, -⟩ | htwo)
      · exact absurd hone hsame
      · -- the two could not be compared, in any order and split
        obtain ⟨t, ht, u, hu, hne⟩ := hseveral
        refine ⟨(.notcomp, []), fun rows hperm => congrArg some ?_,
          fun parts hperm => congrArg some ?_⟩
        · have hts := typesOf_perm hperm
          exact (rows_kind hret hinit fun v hv => hvals v (hperm.mem_iff.mp hv)).notcomp
            ⟨t, hts.mem_iff.mpr ht, u, hts.mem_iff.mpr hu, hne⟩
        · have hts := typesOf_perm hperm
          exact (parts_kind hret hinit (fun v hv => hvals v (hperm.mem_iff.mp hv))
            (by rw [hts.length_eq, htwo])).notcomp
              ⟨t, hts.mem_iff.mpr ht, u, hts.mem_iff.mpr hu, hne⟩

theorem all_pick (f : FunctionType) (ret : Int) (init : LowData)
    (hcompute : ∀ cur v, computeFunc funcs f cur (some v) = some (pick ret cur v))
    (hmerge : ∀ cur v, mergeFunc funcs f cur v = some (pick ret cur v)) :
    computeAll funcs f init = pickRows ret init ∧ mergeAll funcs f init = pickParts ret init := by
  have hall : computeAll funcs f init = pickRows ret init := by
    funext rows
    simp only [computeAll, hcompute]
    exact foldlM_pure
  refine ⟨hall, funext fun parts => ?_⟩
  simp only [mergeAll, hall, hmerge, pickRows, Option.bind_some, pickParts, foldl_map]
  exact foldlM_pure

/-- **MAX and MIN do not depend on the order** of the rows or on how they are
split exactly if the values that are not NULL have one type, or are just two; if
there are none, the NULLs have to be like the initial value. -/
theorem extremes_order_free {f : FunctionType} (hf : f = .max ∨ f = .min) {init : LowData}
    (hinit : init.IsNull ∧ init.type ≠ .notcomp) {vals : List LowData}
    (hvals : ∀ v ∈ vals, Plain v) :
    OneAnswer (computeAll funcs f init) (mergeAll funcs f init) vals ↔ OrderFree init vals := by
  rcases hf with rfl | rfl
  · obtain ⟨hcompute, hmerge⟩ := all_pick funcs .max (-1) init (fun _ _ => rfl) fun _ _ => rfl
    rw [hcompute, hmerge]
    exact oneAnswer_iff (fun _ _ => comp_eq_neg_one) Function.injective_id (by decide) hinit hvals
  · obtain ⟨hcompute, hmerge⟩ := all_pick funcs .min 1 init (fun _ _ => rfl) fun _ _ => rfl
    rw [hcompute, hmerge]
    exact oneAnswer_iff (fun _ _ => comp_eq_one) OrderDual.toDual.injective (by decide) hinit hvals

/-- Functions that leave no value. -/
def noFuncs : OtherFuncs where
  sum _ _ := zeroData
  other _ _ _ := zeroData
  sum_len _ _ := zeroData_len_lt
  other_len _ _ _ := zeroData_len_lt

/-- The numbers 5 and 3 with a NULL, and the number 5 and a text. -/
theorem extremes_order_free_two :
    OneAnswer (computeAll noFuncs .max zeroData) (mergeAll noFuncs .max zeroData)
        [⟨[], .tiny, [5]⟩, zeroData, ⟨[], .tiny, [3]⟩] ∧
      OneAnswer (computeAll noFuncs .max zeroData) (mergeAll noFuncs .max zeroData)
        [⟨[], .tiny, [5]⟩, ⟨[], .string, [97]⟩] :=
  ⟨(extremes_order_free noFuncs (.inl rfl) ⟨zeroData_isNull, by decide⟩
      (by unfold Plain FieldType.IsText; decide)).mpr
      (.inl ⟨by decide, by decide⟩),
    (extremes_order_free noFuncs (.inl rfl) ⟨zeroData_isNull, by decide⟩
      (by unfold Plain FieldType.IsText; decide)).mpr
      (.inr (by decide))⟩

/-- A part with values of two types is lost when it is merged into another one,
and of a NULL and an empty text the last one stays. -/
theorem extremes_order_counts :
    ¬ OneAnswer (computeAll noFuncs .max zeroData) (mergeAll noFuncs .max zeroData)
        [⟨[], .tiny, [5]⟩, ⟨[], .tiny, [3]⟩, ⟨[], .string, [97]⟩] ∧
      ¬ OneAnswer (computeAll noFuncs .max zeroData) (mergeAll noFuncs .max zeroData)
        [zeroData, ⟨[], .string, []⟩] := by
  constructor
  · rintro ⟨c, hrows, hparts⟩
    have hrow := hrows _ (Perm.refl _)
    rw [← hparts [[⟨[], .tiny, [5]⟩], [⟨[], .tiny, [3]⟩, ⟨[], .string, [97]⟩]] (Perm.refl _)]
      at hrow
    exact absurd hrow (by decide)
  · rintro ⟨c, hrows, -⟩
    have hrow := hrows _ (Perm.refl _)
    rw [← hrows [⟨[], .string, []⟩, zeroData] (Perm.swap _ _ _)] at hrow
    exact absurd hrow (by decide)

end AggrFunc

end Mile.Common
