/-
  Mile.Merge.ShardingRule
  ───────────────────────
  **SHARDING RULES** (`server/sharding/SingleShardingRule.java`, `BetweenShardingRule.java`,
  `ModShardingRule.java`, `DefaultShardConfig.java`).

  `equalSharding` gives the nodes for the value of a new row, `expSharding` those for a condition;
  the nodes of all rules of a column are put together.
-/
import Mile.Merge.Value

namespace Mile.Merge

open Lib Common List

abbrev Nodes : Type := Finset Int

/-! ## §1. Range rules. -/

/-- A test of the sign of `data.compareTo(value)`. -/
def testCompare (data value : Value) (test : Int → Bool) : Except Fault Bool := do
  return test (← data.compareTo value)

/-- `SingleShardingRule`. -/
structure SingleShardingRule where
  singleComparator : CompareType
  singleValue : Value
  shardingResult : Nodes

/-- `SingleShardingRule.interSects`: some value on the side of the rule may also
be on the side of `value`. -/
def SingleShardingRule.interSects (rule : SingleShardingRule) (value : Value)
    (compar : CompareType) : Except Fault Bool :=
  if value.comparable.isNone then .ok false
  else
    match compar with
    | .ge | .gt =>
      match rule.singleComparator with
      | .eq | .le =>
        testCompare value rule.singleValue fun c => c < 0 || (compar = .ge && c = 0)
      | .ge | .gt => .ok true
      | .lt => testCompare value rule.singleValue fun c => c < 0
      | _ => .ok false
    | .le | .lt =>
      match rule.singleComparator with
      | .eq | .ge =>
        testCompare value rule.singleValue fun c => c > 0 || (compar = .le && c = 0)
      | .gt => testCompare value rule.singleValue fun c => c > 0
      | .le | .lt => .ok true
      | _ => .ok false
    | .eq =>
      match rule.singleComparator with
      | .eq => testCompare value rule.singleValue fun c => c = 0
      | .ge => testCompare value rule.singleValue fun c => c ≥ 0
      | .gt => testCompare value rule.singleValue fun c => c > 0
      | .le => testCompare value rule.singleValue fun c => c ≤ 0
      | .lt => testCompare value rule.singleValue fun c => c < 0
      | _ => .ok false
    | _ => .ok false

/-- `BetweenShardingRule`; a comparator is missing if the rule has no bracket. -/
structure BetweenShardingRule where
  leftComparator : Option CompareType
  leftValue : Value
  rightComparator : Option CompareType
  rightValue : Value
  shardingResult : Nodes

/-- `BetweenShardingRule.interSects`. -/
def BetweenShardingRule.interSects (rule : BetweenShardingRule) (value : Value)
    (compar : CompareType) : Except Fault Bool :=
  if value.comparable.isNone then .ok false
  else
    match compar with
    | .ge | .gt =>
      if rule.rightComparator = some .le && compar = .ge then
        testCompare value rule.rightValue fun c => c ≤ 0
      else testCompare value rule.rightValue fun c => c < 0
    | .le | .lt =>
      if rule.leftComparator = some .ge && compar = .le then
        testCompare value rule.leftValue fun c => c ≥ 0
      else testCompare value rule.leftValue fun c => c > 0
    | .eq =>
      match rule.leftComparator, rule.rightComparator with
      | some .ge, some .le =>
        bothTests (testCompare value rule.leftValue fun c => c ≥ 0)
          (testCompare value rule.rightValue fun c => c ≤ 0)
      | some .ge, some .lt =>
        bothTests (testCompare value rule.leftValue fun c => c ≥ 0)
          (testCompare value rule.rightValue fun c => c < 0)
      | some .gt, some .le =>
        bothTests (testCompare value rule.leftValue fun c => c > 0)
          (testCompare value rule.rightValue fun c => c ≤ 0)
      | some .gt, some .lt =>
        bothTests (testCompare value rule.leftValue fun c => c > 0)
          (testCompare value rule.rightValue fun c => c < 0)
      | _, _ => .ok false
    | _ => .ok false

/-- The loop over the values of `IN`. -/
def anyValue (interSects : Value → CompareType → Except Fault Bool) :
    List Value → Except Fault Bool
  | [] => .ok false
  | v :: vs => do if ← interSects v .eq then return true else anyValue interSects vs

/-- The `switch` of `expSharding`, one for both kinds of range rules; the default
is no node. -/
def expFlag (interSects : Value → CompareType → Except Fault Bool) (comparator : CompareType)
    (values : List Value) : Except Fault Bool := do
  match comparator with
  | .eq => interSects (← getValue values 0) .eq
  | .ge => interSects (← getValue values 0) .ge
  | .gt => interSects (← getValue values 0) .gt
  | .le => interSects (← getValue values 0) .le
  | .lt => interSects (← getValue values 0) .lt
  | .betweenLeg =>
    bothTests (do interSects (← getValue values 0) .ge) (do interSects (← getValue values 1) .lt)
  | .betweenLege =>
    bothTests (do interSects (← getValue values 0) .ge) (do interSects (← getValue values 1) .le)
  | .betweenLg =>
    bothTests (do interSects (← getValue values 0) .gt) (do interSects (← getValue values 1) .lt)
  | .betweenLge =>
    bothTests (do interSects (← getValue values 0) .gt) (do interSects (← getValue values 1) .le)
  | .in => anyValue interSects values
  | _ => return false

/-! ## §2. Modulo rules. -/

/-- One round of `stringHash`, on `int`. -/
def hashRound (hashCode : Int32) (b : UInt8) : Int32 :=
  hashCode ^^^ ((hashCode <<< 5) + b.toInt8.toInt32 + (hashCode >>> 2))

/-- `ModShardingRule.stringHash`. -/
def stringHash (str : List UInt16) : Int32 :=
  (utf8 str).foldl hashRound 1315423911 &&& 0x7fffffff

/-- `Long.toString`. -/
def decimal (n : Int64) : List UInt16 :=
  let digits := (Nat.toDigits 10 n.toInt.natAbs).map fun c => UInt16.ofNat c.toNat
  if n.toInt < 0 then 45 :: digits else digits

/-- `ModShardingRule`: `init` refuses a modulus that is not positive. -/
structure ModShardingRule where
  modValue : Int64
  modValue_pos : 0 < modValue.toInt
  modPosition : List Int32
  shardingResult : List Nodes

section Mod

-- `Character.digit(c, 10)`, for the characters that are digits
variable (digit : UInt16 → Option Nat)

/-- The digits at the positions of the rule, as one `long`. -/
def digitsAt (str : List UInt16) : List Int32 → Int64 → Except Fault Int64
  | [], value => .ok value
  | p :: ps, value =>
    let index := if p.toInt < 0 then p.toInt + str.length else p.toInt
    if index ≥ str.length || index < 0 then .error .indexOutOfBounds
    else
      match (str[index.toNat]?).bind digit with
      | some d => digitsAt str ps (value * 10 + Int64.ofNat d)
      | none => .error .numberFormat

namespace ModShardingRule

variable (rule : ModShardingRule)

/-- `(int) (value % modValue)`. -/
def modIndex (value : Int64) : Int32 := (value % rule.modValue).toInt32

/-- `calcModIndex(String)`. -/
def calcModIndexString (str : List UInt16) : Except Fault Int32 :=
  if rule.modPosition = [] then .ok (rule.modIndex (stringHash str).toInt64)
  else do return rule.modIndex (← digitsAt digit str rule.modPosition 0)

/-- `calcModIndex(Long)`. -/
def calcModIndexLong (value : Int64) : Except Fault Int32 :=
  if rule.modPosition = [] then .ok (rule.modIndex value)
  else rule.calcModIndexString digit (decimal value)

def calcModIndex (value : Value) : Except Fault Int32 :=
  match value with
  | .long n => rule.calcModIndexLong digit n
  | .integer n => rule.calcModIndexLong digit n.toInt64
  | .string str => rule.calcModIndexString digit str
  | _ => .ok (-1)

/-- `ModShardingRule.equalSharding`. -/
def equalSharding (value : Value) : Except Fault Nodes :=
  match rule.calcModIndex digit value with
  | .error _ => .error .sqlExecute
  | .ok index =>
    if index.toInt ≥ 0 then
      match rule.shardingResult[index.toInt.toNat]? with
      | some nodes => .ok nodes
      | none => .error .indexOutOfBounds
    else .ok ∅

/-- The nodes of all values of `IN`. -/
def inSharding : List Value → Except Fault Nodes
  | [] => .ok ∅
  | v :: vs => do
    let nodes ← equalSharding digit rule v
    return nodes ∪ (← inSharding vs)

/-- `ModShardingRule.expSharding`: whatever goes wrong is one exception. -/
def expSharding (comparator : CompareType) (values : List Value) : Except Fault Nodes :=
  let result := match comparator with
    | .eq => do equalSharding digit rule (← getValue values 0)
    | .in => inSharding digit rule values
    | _ => .ok (rule.shardingResult.foldr (· ∪ ·) ∅)
  match result with
  | .ok nodes => .ok nodes
  | .error _ => .error .sqlExecute

end ModShardingRule

/-! ## §3. The rules of a column. -/

/-- `ShardingRule`. -/
inductive ShardingRule where
  | single (rule : SingleShardingRule)
  | between (rule : BetweenShardingRule)
  | mod (rule : ModShardingRule)

def nodesIf (flag : Except Fault Bool) (nodes : Nodes) : Except Fault Nodes := do
  return if ← flag then nodes else ∅

/-- `equalSharding`; no result counts as no node. -/
def ShardingRule.equalSharding (value : Value) : ShardingRule → Except Fault Nodes
  | .single rule => nodesIf (rule.interSects value .eq) rule.shardingResult
  | .between rule => nodesIf (rule.interSects value .eq) rule.shardingResult
  | .mod rule => rule.equalSharding digit value

/-- `expSharding`. -/
def ShardingRule.expSharding (comparator : CompareType) (values : List Value) :
    ShardingRule → Except Fault Nodes
  | .single rule => nodesIf (expFlag rule.interSects comparator values) rule.shardingResult
  | .between rule => nodesIf (expFlag rule.interSects comparator values) rule.shardingResult
  | .mod rule => rule.expSharding digit comparator values

def unionRules (sharding : ShardingRule → Except Fault Nodes) :
    List ShardingRule → Except Fault Nodes
  | [] => .ok ∅
  | r :: rs => do
    let nodes ← sharding r
    return nodes ∪ (← unionRules sharding rs)

/-- `DefaultShardConfig`: the rules of the columns of each table. -/
structure DefaultShardConfig where
  shardingMapping : String → Option (String → Option (List ShardingRule))

namespace DefaultShardConfig

variable (shard : DefaultShardConfig) (tableName columnName : String)

def columnRules : List ShardingRule :=
  match shard.shardingMapping tableName with
  | none => []
  | some tableRule => (tableRule columnName).getD []

/-- `isShardingColumn`. -/
def isShardingColumn : Bool := shard.columnRules tableName columnName ≠ []

/-- `DefaultShardConfig.equalSharding`. -/
def equalSharding (value : Value) : Except Fault Nodes :=
  unionRules (ShardingRule.equalSharding digit value) (shard.columnRules tableName columnName)

/-- `DefaultShardConfig.expSharding`. -/
def expSharding (comparator : CompareType) (values : List Value) : Except Fault Nodes :=
  unionRules (ShardingRule.expSharding digit comparator values)
    (shard.columnRules tableName columnName)

end DefaultShardConfig

end Mod

/-! ## §4. Conditions that a value satisfies. -/

/-- The test of a comparator on the sign of `compareTo`. -/
def signTest : CompareType → Int → Bool
  | .eq, c => c = 0
  | .gt, c => c > 0
  | .ge, c => c ≥ 0
  | .lt, c => c < 0
  | .le, c => c ≤ 0
  | .ne, c => c ≠ 0
  | _, _ => false

/-- The value meets another one, as `compareTo` compares them. -/
def Value.Meets (v : Value) (comparator : CompareType) (w : Value) : Prop :=
  v.comparable.isSome ∧ ∃ c, v.compareTo w = .ok c ∧ signTest comparator c = true

/-- The value satisfies a condition.  A full-text match is no comparison of
values: any value may satisfy it. -/
def CondHolds (v : Value) (comparator : CompareType) (values : List Value) : Prop :=
  match comparator with
  | .in => ∃ w ∈ values, v.Meets .eq w
  | .betweenLg => ∃ a b, values[0]? = some a ∧ values[1]? = some b ∧ v.Meets .gt a ∧ v.Meets .lt b
  | .betweenLge => ∃ a b, values[0]? = some a ∧ values[1]? = some b ∧ v.Meets .gt a ∧ v.Meets .le b
  | .betweenLeg => ∃ a b, values[0]? = some a ∧ values[1]? = some b ∧ v.Meets .ge a ∧ v.Meets .lt b
  | .betweenLege => ∃ a b, values[0]? = some a ∧ values[1]? = some b ∧ v.Meets .ge a ∧ v.Meets .le b
  | .match => True
  | _ => ∃ w, values[0]? = some w ∧ v.Meets comparator w

def CompareType.arity : CompareType → Nat
  | .betweenLg | .betweenLge | .betweenLeg | .betweenLege => 2
  | .in => 0
  | _ => 1

/-- The values a condition on a column of a class has: those it needs, of the
class or not comparable. -/
structure TypedValues (c : JavaClass) (comparator : CompareType) (values : List Value) : Prop where
  arity : CompareType.arity comparator ≤ values.length
  typed : ∀ v ∈ values, v.comparable = none ∨ v.comparable = some c

section Ranges

variable {c : JavaClass} {v w : Value} {comparator : CompareType} {values : List Value}

theorem Value.Meets.comparable (h : v.Meets comparator w) (hv : v.comparable = some c) :
    w.comparable = some c := by
  obtain ⟨-, r, hcmp, -⟩ := h
  unfold Value.compareTo at hcmp
  split_ifs at hcmp with hnull hclass
  rw [← hv]
  exact (not_not.mp hclass).symm

theorem Value.Meets.sign (h : v.Meets comparator w) (hv : v.comparable = some c) :
    signTest comparator (comp v.place w.place) = true := by
  obtain ⟨-, r, hcmp, htest⟩ := h
  rw [Value.compareTo_eq hv (Value.Meets.comparable ⟨by simp [hv], r, hcmp, htest⟩ hv)] at hcmp
  cases hcmp
  exact htest

theorem eq_of_meets (hmeets : v.Meets .eq w) : v = w := by
  obtain ⟨c, hv⟩ := Option.isSome_iff_exists.mp hmeets.1
  refine Value.place_injective hv (hmeets.comparable hv) ?_
  simpa [signTest, comp_eq_zero] using hmeets.sign hv

theorem testCompare_eq (hv : v.comparable = some c) (hw : w.comparable = some c)
    (test : Int → Bool) : testCompare v w test = .ok (test (comp v.place w.place)) := by
  unfold testCompare
  rw [Value.compareTo_eq hv hw]
  rfl

def Answers (interSects : Value → CompareType → Except Fault Bool) (c : JavaClass) : Prop :=
  ∀ w compar, w.comparable = none ∨ w.comparable = some c → ∃ b, interSects w compar = .ok b

def MeetsAll (interSects : Value → CompareType → Except Fault Bool) (v : Value) : Prop :=
  ∀ w compar, compar ∈ [.eq, .gt, .ge, .lt, .le] → v.Meets compar w → interSects w compar = .ok true

theorem bothTests_ok (a b : Bool) : bothTests (.ok a) (.ok b) = .ok (a && b) := by
  cases a <;> rfl

theorem single_answers {rule : SingleShardingRule} (hrule : rule.singleValue.comparable = some c) :
    Answers rule.interSects c := by
  intro w compar hw
  unfold SingleShardingRule.interSects
  rcases hw with hw | hw
  · simp [hw]
  · simp only [hw, Option.isNone_some, Bool.false_eq_true, if_false, testCompare_eq hw hrule]
    cases compar <;> cases rule.singleComparator <;> exact ⟨_, rfl⟩

variable {rule : BetweenShardingRule}

theorem between_answers (hleft : rule.leftValue.comparable = some c)
    (hright : rule.rightValue.comparable = some c) : Answers rule.interSects c := by
  intro w compar hw
  unfold BetweenShardingRule.interSects
  rcases hw with hw | hw
  · simp [hw]
  · simp only [hw, Option.isNone_some, Bool.false_eq_true, if_false, testCompare_eq hw hleft,
      testCompare_eq hw hright]
    cases compar
    case ge | gt | le | lt => split_ifs <;> exact ⟨_, rfl⟩
    case eq =>
      simp only [bothTests_ok]
      split <;> exact ⟨_, rfl⟩
    all_goals exact ⟨_, rfl⟩

/-- **A single rule that has the value of a row meets the conditions the value
satisfies**: some value, that of the row, is on both sides. -/
theorem single_meetsAll {rule : SingleShardingRule} (hrule : rule.singleValue.comparable = some c)
    (hv : v.comparable = some c) (hhas : rule.interSects v .eq = .ok true) :
    MeetsAll rule.interSects v := by
  intro w compar hcompar hmeets
  have hw := hmeets.comparable hv
  have hsign := hmeets.sign hv
  unfold SingleShardingRule.interSects at hhas ⊢
  simp only [hv, hw, Option.isNone_some, Bool.false_eq_true, if_false, testCompare_eq hv hrule,
    testCompare_eq hw hrule] at hhas ⊢
  generalize v.place = x at hhas hsign
  generalize w.place = z at hsign ⊢
  generalize rule.singleValue.place = y at hhas ⊢
  cases hr : rule.singleComparator <;> rw [hr] at hhas <;>
    simp only [Except.ok.injEq, Bool.false_eq_true, decide_eq_true_eq, ge_iff_le, gt_iff_lt,
      comp_neg_iff, comp_pos_iff, comp_nonneg_iff, comp_nonpos_iff, comp_eq_zero] at hhas
  all_goals
    simp only [mem_cons, not_mem_nil, or_false] at hcompar
    rcases hcompar with rfl | rfl | rfl | rfl | rfl <;>
      simp only [signTest, decide_eq_true_eq, ge_iff_le, gt_iff_lt, comp_neg_iff, comp_pos_iff,
        comp_nonneg_iff, comp_nonpos_iff, comp_eq_zero] at hsign <;>
      simp only [Except.ok.injEq, Bool.or_eq_true, Bool.and_eq_true, decide_eq_true_eq, ge_iff_le,
        gt_iff_lt, comp_neg_iff, comp_pos_iff, comp_nonneg_iff, comp_nonpos_iff, comp_eq_zero,
        reduceCtorEq, decide_false, decide_true, true_and, false_and, or_false, Bool.false_eq_true]
  all_goals grind

theorem testCompare_class {test : Int → Bool} {b : Bool} (hw : w.comparable = some c)
    (h : testCompare v w test = .ok b) : v.comparable = some c := by
  unfold testCompare Value.compareTo at h
  split_ifs at h with hnull hclass
  · cases h
  · cases h
  · rw [← hw]
    exact not_not.mp hclass

theorem single_class {rule : SingleShardingRule} (hrule : rule.singleValue.comparable = some c)
    (hhas : rule.interSects v .eq = .ok true) : v.comparable = some c := by
  unfold SingleShardingRule.interSects at hhas
  split at hhas
  · cases hhas
  · simp only at hhas
    split at hhas
    case h_6 => cases hhas
    all_goals exact testCompare_class hrule hhas

section

variable (hleft : rule.leftValue.comparable = some c)

include hleft

theorem between_class (hhas : rule.interSects v .eq = .ok true) : v.comparable = some c := by
  -- the first of two tests that both hold has an answer
  have hfirst : ∀ {test : Int → Bool} {b : Except Fault Bool},
      bothTests (testCompare v rule.leftValue test) b = .ok true → v.comparable = some c := by
    intro test b h
    cases ht : testCompare v rule.leftValue test with
    | ok r => exact testCompare_class hleft ht
    | error e =>
      rw [ht] at h
      cases h
  unfold BetweenShardingRule.interSects at hhas
  split at hhas
  · cases hhas
  · simp only at hhas
    split at hhas
    case h_5 => cases hhas
    all_goals exact hfirst hhas

theorem between_has (hright : rule.rightValue.comparable = some c) (hv : v.comparable = some c)
    (hhas : rule.interSects v .eq = .ok true) :
    (rule.leftValue.place < v.place ∨
      rule.leftComparator = some .ge ∧ rule.leftValue.place ≤ v.place) ∧
    (v.place < rule.rightValue.place ∨
      rule.rightComparator = some .le ∧ v.place ≤ rule.rightValue.place) := by
  unfold BetweenShardingRule.interSects at hhas
  simp only [hv, Option.isNone_some, Bool.false_eq_true, if_false, testCompare_eq hv hleft,
    testCompare_eq hv hright, bothTests_ok] at hhas
  split at hhas <;>
    simp only [Except.ok.injEq, Bool.and_eq_true, decide_eq_true_eq, ge_iff_le, gt_iff_lt,
      comp_neg_iff, comp_pos_iff, comp_nonneg_iff, comp_nonpos_iff, Bool.false_eq_true] at hhas
  · next hl hr => exact ⟨.inr ⟨hl, hhas.1⟩, .inr ⟨hr, hhas.2⟩⟩
  · next hl hr => exact ⟨.inr ⟨hl, hhas.1⟩, .inl hhas.2⟩
  · next hl hr => exact ⟨.inl hhas.1, .inr ⟨hr, hhas.2⟩⟩
  · next hl hr => exact ⟨.inl hhas.1, .inl hhas.2⟩

/-- A between rule that has the value meets every test. -/
theorem between_meetsAll (hright : rule.rightValue.comparable = some c) (hv : v.comparable = some c)
    (hhas : rule.interSects v .eq = .ok true) : MeetsAll rule.interSects v := by
  intro w compar hcompar hmeets
  have hw := hmeets.comparable hv
  have hsign := hmeets.sign hv
  obtain ⟨hl, hr⟩ := between_has hleft hright hv hhas
  simp only [mem_cons, not_mem_nil, or_false] at hcompar
  rcases hcompar with rfl | hcompar
  · exact eq_of_meets hmeets ▸ hhas
  · unfold BetweenShardingRule.interSects
    simp only [hw, Option.isNone_some, Bool.false_eq_true, if_false, testCompare_eq hw hleft,
      testCompare_eq hw hright]
    rcases hcompar with rfl | rfl | rfl | rfl <;>
      simp only [signTest, decide_eq_true_eq, ge_iff_le, gt_iff_lt, comp_neg_iff, comp_pos_iff,
        comp_nonneg_iff, comp_nonpos_iff] at hsign <;>
      simp only [reduceCtorEq, decide_false, decide_true, Bool.and_false, Bool.and_true,
        Bool.false_eq_true, if_false, decide_eq_true_eq] <;>
      (try split_ifs) <;>
      simp only [Except.ok.injEq, decide_eq_true_eq, comp_neg_iff, comp_pos_iff, comp_nonneg_iff,
        comp_nonpos_iff, gt_iff_lt, ge_iff_le] <;>
      grind

end

variable {interSects : Value → CompareType → Except Fault Bool} (hanswers : Answers interSects c)
  (htyped : ∀ v ∈ values, v.comparable = none ∨ v.comparable = some c)

theorem getValue_ok {i : Nat} (h : i < values.length) :
    ∃ w, values[i]? = some w ∧ w ∈ values ∧ getValue values i = .ok w := by
  refine ⟨values[i], getElem?_eq_getElem h, getElem_mem h, ?_⟩
  rw [getValue, getElem?_eq_getElem h]

include hanswers htyped

/-- The test over the values of an IN. -/
theorem anyValue_ok :
    ∃ b, anyValue interSects values = .ok b ∧
      ((∃ w ∈ values, interSects w .eq = .ok true) → b = true) := by
  induction values with
  | nil => exact ⟨false, rfl, fun h => by simp at h⟩
  | cons a values ih =>
    obtain ⟨hhead, htail⟩ := forall_mem_cons.mp htyped
    obtain ⟨b, hb⟩ := hanswers a .eq hhead
    obtain ⟨b', hb', himp⟩ := ih htail
    unfold anyValue
    cases b with
    | true =>
      refine ⟨true, ?_, fun _ => rfl⟩
      rw [hb]
      rfl
    | false =>
      refine ⟨b', ?_, ?_⟩
      · rw [hb]
        exact hb'
      · rintro ⟨w, hw, htrue⟩
        rcases mem_cons.mp hw with rfl | hw
        · rw [hb] at htrue
          cases htrue
        · exact himp ⟨w, hw, htrue⟩

theorem interSects_ok {i : Nat} (hi : i < values.length) {compar : CompareType}
    (hcompar : compar ∈ [.eq, .gt, .ge, .lt, .le]) :
    ∃ w b, values[i]? = some w ∧
      ((getValue values i) >>= fun w => interSects w compar) = .ok b ∧
      (MeetsAll interSects v → v.Meets compar w → b = true) := by
  obtain ⟨w, hw, hmem, hget⟩ := getValue_ok hi
  obtain ⟨b, hb⟩ := hanswers w compar (htyped w hmem)
  refine ⟨w, b, hw, ?_, fun hall hmeets => ?_⟩
  · rw [hget]
    exact hb
  · have htrue := hall w compar hcompar hmeets
    rw [hb] at htrue
    exact Except.ok.inj htrue

theorem bothTests_interSects_ok {P : Prop} (hlength : 2 ≤ values.length)
    (left right : CompareType) (hleft : left ∈ [.eq, .gt, .ge, .lt, .le])
    (hright : right ∈ [.eq, .gt, .ge, .lt, .le]) :
    ∃ r, bothTests ((getValue values 0) >>= fun w => interSects w left)
        ((getValue values 1) >>= fun w => interSects w right) = .ok r ∧
      (P → MeetsAll interSects v →
        (∃ a b, values[0]? = some a ∧ values[1]? = some b ∧ v.Meets left a ∧ v.Meets right b) →
        r = true) := by
  obtain ⟨w, b, hw, hb, hbtrue⟩ := interSects_ok (v := v) hanswers htyped (i := 0) (by omega) hleft
  obtain ⟨u, d, hu, hd, hdtrue⟩ := interSects_ok (v := v) hanswers htyped (i := 1) (by omega) hright
  refine ⟨b && d, ?_, ?_⟩
  · rw [hb, hd, bothTests_ok]
  · rintro - hall ⟨w', u', hw', hu', hmeetsLeft, hmeetsRight⟩
    cases hw.symm.trans hw'
    cases hu.symm.trans hu'
    rw [hbtrue hall hmeetsLeft, hdtrue hall hmeetsRight]
    rfl

omit htyped in
/-- **`expSharding` of a range rule answers, and with the nodes if the row's value
satisfies the condition**, for the comparators that its `switch` has. -/
theorem expFlag_ok (hvalues : TypedValues c comparator values) :
    ∃ b, expFlag interSects comparator values = .ok b ∧
      (comparator ≠ .ne ∧ comparator ≠ .match → MeetsAll interSects v →
        CondHolds v comparator values → b = true) := by
  obtain ⟨harity, htyped⟩ := hvalues
  -- the comparators of one value
  have hone {P : Prop} (compar) (hcompar : compar ∈ [CompareType.eq, .gt, .ge, .lt, .le])
      (hlength : 0 < values.length) :
      ∃ b, ((getValue values 0) >>= fun w => interSects w compar) = .ok b ∧
        (P → MeetsAll interSects v → (∃ w, values[0]? = some w ∧ v.Meets compar w) → b = true) := by
    obtain ⟨w, b, hw, hb, htrue⟩ := interSects_ok (v := v) hanswers htyped hlength hcompar
    refine ⟨b, hb, ?_⟩
    rintro - hall ⟨w', hw', hmeets⟩
    cases hw.symm.trans hw'
    exact htrue hall hmeets
  unfold expFlag CondHolds
  cases comparator
  case eq | gt | ge | lt | le => exact hone _ (by simp) harity
  case «in» =>
    obtain ⟨b, hb, htrue⟩ := anyValue_ok hanswers htyped
    refine ⟨b, hb, ?_⟩
    rintro - hall ⟨w, hw, hmeets⟩
    exact htrue ⟨w, hw, hall w .eq (by simp) hmeets⟩
  case betweenLg | betweenLge | betweenLeg | betweenLege =>
    exact bothTests_interSects_ok hanswers htyped harity _ _ (by simp) (by simp)
  case ne => exact ⟨false, rfl, fun hne => absurd rfl hne.1⟩
  case «match» => exact ⟨false, rfl, fun hmatch => absurd rfl hmatch.2⟩

end Ranges

/-! ## §5. The rules of a column and a condition. -/

section Rules

variable (digit : UInt16 → Option Nat) {c : JavaClass} {v : Value} {comparator : CompareType}
  {values : List Value}

def ShardingRule.Typed (c : JavaClass) : ShardingRule → Prop
  | .single rule => rule.singleValue.comparable = some c
  | .between rule => rule.leftValue.comparable = some c ∧ rule.rightValue.comparable = some c
  | .mod _ => True

/-- The rule has the comparator in its `switch`: a range rule has none for `<>` and MATCH. -/
def ShardingRule.Switches (comparator : CompareType) : ShardingRule → Prop
  | .mod _ => True
  | _ => comparator ≠ .ne ∧ comparator ≠ .match

/-- The rule throws nothing: a modulo rule can reduce the values it reads, the first one for
`=` and all for IN. -/
def ShardingRule.Reduces (comparator : CompareType) (values : List Value) : ShardingRule → Prop
  | .mod rule =>
    match comparator with
    | .eq => ∀ w, values[0]? = some w → ∃ nodes, rule.equalSharding digit w = .ok nodes
    | .in => ∀ w ∈ values, ∃ nodes, rule.equalSharding digit w = .ok nodes
    | _ => True
  | _ => True

variable {flag : Except Fault Bool}

theorem nodesIf_ok {b : Bool} (h : flag = .ok b) (nodes : Nodes) :
    nodesIf flag nodes = .ok (if b then nodes else ∅) := by
  rw [h]
  rfl

theorem mem_nodesIf {nodes result : Nodes} {node : Int} (h : nodesIf flag nodes = .ok result)
    (hnode : node ∈ result) : flag = .ok true ∧ node ∈ nodes := by
  cases flag with
  | error e => cases h
  | ok b =>
    rw [nodesIf_ok rfl] at h
    cases h
    cases b with
    | true => exact ⟨rfl, hnode⟩
    | false => simp at hnode

section Union

variable {α : Type} {f : α → Except Fault Nodes} {u : List α → Except Fault Nodes} {l : List α}
  (hnil : u [] = .ok ∅)
  (hcons : ∀ a l, u (a :: l) = do
    let nodes ← f a
    return nodes ∪ (← u l))

include hnil hcons

theorem union_ok_iff : (∃ result, u l = .ok result) ↔ ∀ a ∈ l, ∃ nodes, f a = .ok nodes := by
  induction l with
  | nil => simp [hnil]
  | cons a l ih =>
    rw [forall_mem_cons, ← ih, hcons]
    cases f a with
    | error e => simp [bind, Except.bind]
    | ok nodes => cases u l <;> simp [bind, Except.bind, pure, Except.pure]

/-- The nodes of a union. -/
theorem mem_union {result : Nodes} {node : Int} (h : u l = .ok result) :
    node ∈ result ↔ ∃ a ∈ l, ∃ nodes, f a = .ok nodes ∧ node ∈ nodes := by
  induction l generalizing result with
  | nil =>
    cases hnil.symm.trans h
    simp
  | cons a l ih =>
    rw [hcons] at h
    cases ha : f a with
    | error e =>
      rw [ha] at h
      cases h
    | ok nodes =>
      cases htail : u l with
      | error e =>
        rw [ha, htail] at h
        cases h
      | ok rest =>
        rw [ha, htail] at h
        cases h
        simp [ha, ih htail]

end Union

namespace ModShardingRule

variable {rule : ModShardingRule}

theorem mem_equalSharding {nodes : Nodes} {node : Int}
    (h : rule.equalSharding digit v = .ok nodes) (hnode : node ∈ nodes) :
    nodes ∈ rule.shardingResult := by
  unfold equalSharding at h
  split at h
  · cases h
  · split_ifs at h
    · split at h
      · next hget =>
          cases h
          exact mem_of_getElem? hget
      · cases h
    · cases h
      simp at hnode

theorem mem_foldr_union {sets : List Nodes} {node : Int} :
    node ∈ sets.foldr (· ∪ ·) ∅ ↔ ∃ nodes ∈ sets, node ∈ nodes := by
  induction sets with
  | nil => simp
  | cons s sets ih => simp [ih]

/-- A rule that placed the row reaches its nodes, or throws. -/
theorem expSharding_superset {nodes : Nodes}
    (hcond : CondHolds v comparator values) (hnodes : rule.equalSharding digit v = .ok nodes) :
    rule.expSharding digit comparator values = .error .sqlExecute ∨
      ∃ result, rule.expSharding digit comparator values = .ok result ∧ nodes ⊆ result := by
  by_cases heq : comparator = .eq
  · subst heq
    obtain ⟨w, hw, hmeets⟩ := hcond
    rw [eq_of_meets hmeets] at hnodes
    refine .inr ⟨nodes, ?_, Finset.Subset.refl _⟩
    simp only [expSharding, getValue, hw, bind, Except.bind, hnodes]
  by_cases hin : comparator = .in
  · subst hin
    obtain ⟨w, hw, hmeets⟩ := hcond
    rw [eq_of_meets hmeets] at hnodes
    simp only [expSharding]
    cases hresult : rule.inSharding digit values with
    | error e => exact .inl rfl
    | ok result =>
      exact .inr ⟨result, rfl, fun node hnode =>
        (mem_union rfl (fun _ _ => rfl) hresult).mpr ⟨w, hw, nodes, hnodes, hnode⟩⟩
  · refine .inr ⟨rule.shardingResult.foldr (· ∪ ·) ∅, ?_, fun node hnode => ?_⟩
    · cases comparator <;> first | exact absurd rfl heq | exact absurd rfl hin | rfl
    · exact mem_foldr_union.mpr ⟨nodes, mem_equalSharding digit hnodes hnode, hnode⟩

/-- A modulo rule answers exactly if it can reduce the values it reads. -/
theorem expSharding_ok_iff (harity : CompareType.arity comparator ≤ values.length) :
    (∃ result, rule.expSharding digit comparator values = .ok result) ↔
      (ShardingRule.mod rule).Reduces digit comparator values := by
  cases comparator
  case eq =>
    obtain ⟨w, hw, -, hget⟩ := getValue_ok (i := 0) harity
    simp only [expSharding, ShardingRule.Reduces, hget, hw, bind, Except.bind, Option.some.injEq,
      forall_eq']
    cases rule.equalSharding digit w <;> simp
  case «in» =>
    rw [ShardingRule.Reduces, ← union_ok_iff (u := inSharding digit rule) rfl fun _ _ => rfl]
    simp only [expSharding]
    cases rule.inSharding digit values <;> simp
  all_goals exact iff_of_true ⟨_, rfl⟩ trivial

end ModShardingRule

section Answer

variable {rule : ShardingRule} (hvalues : TypedValues c comparator values)

include hvalues

/-- **A rule answers exactly if it can reduce what it reads.** -/
theorem ShardingRule.expSharding_ok_iff (hrule : rule.Typed c) :
    (∃ result, rule.expSharding digit comparator values = .ok result) ↔
      rule.Reduces digit comparator values := by
  -- a range rule always answers
  have hrange : ∀ {interSects : Value → CompareType → Except Fault Bool} {shardingResult : Nodes},
      Answers interSects c →
      ∃ result, nodesIf (expFlag interSects comparator values) shardingResult = .ok result := by
    intro interSects shardingResult hanswers
    obtain ⟨b, hb, -⟩ := expFlag_ok (v := .null) hanswers hvalues
    exact ⟨_, nodesIf_ok hb shardingResult⟩
  cases rule with
  | single rule => exact iff_of_true (hrange (single_answers hrule)) trivial
  | between rule => exact iff_of_true (hrange (between_answers hrule.1 hrule.2)) trivial
  | mod rule => exact ModShardingRule.expSharding_ok_iff digit hvalues.arity

/-- **The answer has the nodes of a value that satisfies the condition**, if the rule has its
comparator. -/
theorem ShardingRule.mem_expSharding (hrule : rule.Typed c) (hswitch : rule.Switches comparator)
    {result nodes : Nodes} {node : Int}
    (hresult : rule.expSharding digit comparator values = .ok result)
    (hnodes : rule.equalSharding digit v = .ok nodes) (hnode : node ∈ nodes)
    (hcond : CondHolds v comparator values) : node ∈ result := by
  -- a range rule, from the two facts about its `interSects`
  have hrange : ∀ {interSects : Value → CompareType → Except Fault Bool} {shardingResult : Nodes},
      Answers interSects c → (interSects v .eq = .ok true → MeetsAll interSects v) →
      comparator ≠ .ne ∧ comparator ≠ .match →
      nodesIf (expFlag interSects comparator values) shardingResult = .ok result →
      nodesIf (interSects v .eq) shardingResult = .ok nodes → node ∈ result := by
    intro interSects shardingResult hanswers hmeets hcomparator hresult hnodes
    obtain ⟨hhas, hmem⟩ := mem_nodesIf hnodes hnode
    obtain ⟨b, hb, htrue⟩ := expFlag_ok (v := v) hanswers hvalues
    rw [nodesIf_ok hb] at hresult
    cases hresult
    rw [htrue hcomparator (hmeets hhas) hcond]
    exact hmem
  cases rule with
  | single rule =>
    refine hrange (single_answers hrule) (fun hhas => ?_) hswitch hresult hnodes
    exact single_meetsAll hrule (single_class hrule hhas) hhas
  | between rule =>
    obtain ⟨hleft, hright⟩ := hrule
    refine hrange (between_answers hleft hright) (fun hhas => ?_) hswitch hresult hnodes
    exact between_meetsAll hleft hright (between_class hleft hhas) hhas
  | mod rule =>
    rcases ModShardingRule.expSharding_superset digit hcond hnodes with herror | ⟨_, hok, hsub⟩
    · cases hresult.symm.trans herror
    · cases hresult.symm.trans hok
      exact hsub hnode

variable {shard : DefaultShardConfig} {tableName columnName : String}
  (hrules : ∀ rule ∈ shard.columnRules tableName columnName, rule.Typed c)

include hrules

/-- **A column answers for a condition exactly if all its rules do.** -/
theorem DefaultShardConfig.expSharding_ok_iff :
    (∃ result, shard.expSharding digit tableName columnName comparator values = .ok result) ↔
      ∀ rule ∈ shard.columnRules tableName columnName, rule.Reduces digit comparator values := by
  refine (union_ok_iff (u := unionRules _) rfl fun _ _ => rfl).trans
    (forall₂_congr fun rule hmem => ?_)
  exact ShardingRule.expSharding_ok_iff digit hvalues (hrules rule hmem)

/-- **The answer of a column has the nodes of a value that satisfies the condition**, if the
rule that gives them has the comparator. -/
theorem DefaultShardConfig.mem_expSharding {result nodes : Nodes} {node : Int}
    (hresult : shard.expSharding digit tableName columnName comparator values = .ok result)
    (hmem : rule ∈ shard.columnRules tableName columnName) (hswitch : rule.Switches comparator)
    (hnodes : rule.equalSharding digit v = .ok nodes) (hnode : node ∈ nodes)
    (hcond : CondHolds v comparator values) : node ∈ result := by
  obtain ⟨ruleResult, hruleResult⟩ :=
    (union_ok_iff (u := unionRules _) rfl fun _ _ => rfl).mp ⟨result, hresult⟩ rule hmem
  refine (mem_union (u := unionRules _) rfl (fun _ _ => rfl) hresult).mpr
    ⟨rule, hmem, ruleResult, hruleResult, ?_⟩
  exact ShardingRule.mem_expSharding digit hvalues (hrules rule hmem) hswitch hruleResult hnodes
    hnode hcond

end Answer

end Rules

end Mile.Merge
