/-
  Mile.Merge.ShardingExact
  ────────────────────────
  **WHAT THE SHARDING RULES ANSWER** (`server/sharding/SingleShardingRule.java`,
  `BetweenShardingRule.java`, `ModShardingRule.java`).

  A range rule tests the ends of a condition one by one: intervals that meet pairwise have a point
  in common, so what is exact for one end is exact for two.
-/
import Mile.Merge.ShardingRule

namespace Mile.Merge

open Lib Common List

/-! ## §1. Sets of an order. -/

section Order

variable {α : Type} [LinearOrder α] {I U V D : Set α}

theorem inter_nonempty_of_pairwise (hI : I.OrdConnected) (hU : IsUpperSet U) (hD : IsLowerSet D)
    (hIU : (I ∩ U).Nonempty) (hID : (I ∩ D).Nonempty) (hUD : (U ∩ D).Nonempty) :
    (I ∩ (U ∩ D)).Nonempty := by
  obtain ⟨x, hxI, hxU⟩ := hIU
  obtain ⟨y, hyI, hyD⟩ := hID
  obtain ⟨z, hzU, hzD⟩ := hUD
  by_cases hxD : x ∈ D
  · exact ⟨x, hxI, hxU, hxD⟩
  by_cases hyU : y ∈ U
  · exact ⟨y, hyI, hyU, hyD⟩
  -- the common point lies between the other two
  have hyz : y ≤ z := le_of_not_ge fun h => hyU (hU h hzU)
  have hzx : z ≤ x := le_of_not_ge fun h => hxD (hD h hzD)
  exact ⟨z, hI.out hyI hxI ⟨hyz, hzx⟩, hzU, hzD⟩

omit [LinearOrder α] in
theorem inter_nonempty_iff (htotal : U ⊆ V ∨ V ⊆ U) (h : (U ∩ D).Nonempty) :
    (U ∩ D ∩ V).Nonempty ↔ (D ∩ V).Nonempty := by
  refine ⟨Set.Nonempty.mono (Set.inter_subset_inter_left V Set.inter_subset_right), fun hDV => ?_⟩
  rcases htotal with hsub | hsub
  · rwa [Set.inter_eq_left.mpr (Set.inter_subset_left.trans hsub)]
  · obtain ⟨x, hD, hV⟩ := hDV
    exact ⟨x, ⟨hsub hV, hD⟩, hV⟩

/-- The values that stand to `a` as the comparator says. -/
def sideSet (a : α) : CompareType → Set α
  | .eq => {a}
  | .gt => Set.Ioi a
  | .ge => Set.Ici a
  | .lt => Set.Iio a
  | .le => Set.Iic a
  | _ => ∅

theorem sideSet_upper {k : CompareType} (h : k = .gt ∨ k = .ge) (a : α) :
    IsUpperSet (sideSet a k) := by
  rcases h with rfl | rfl
  · exact isUpperSet_Ioi a
  · exact isUpperSet_Ici a

theorem sideSet_lower {k : CompareType} (h : k = .lt ∨ k = .le) (a : α) :
    IsLowerSet (sideSet a k) := by
  rcases h with rfl | rfl
  · exact isLowerSet_Iio a
  · exact isLowerSet_Iic a

def condSet (f : Value → α) (comparator : CompareType) (values : List Value) : Set α :=
  match comparator, values with
  | .in, _ => {x | ∃ w ∈ values, x = f w}
  | .betweenLg, a :: b :: _ => sideSet (f a) .gt ∩ sideSet (f b) .lt
  | .betweenLge, a :: b :: _ => sideSet (f a) .gt ∩ sideSet (f b) .le
  | .betweenLeg, a :: b :: _ => sideSet (f a) .ge ∩ sideSet (f b) .lt
  | .betweenLege, a :: b :: _ => sideSet (f a) .ge ∩ sideSet (f b) .le
  | _, a :: _ => sideSet (f a) comparator
  | _, [] => ∅

def ShardingRule.interval (f : Value → α) : ShardingRule → Set α
  | .single rule => sideSet (f rule.singleValue) rule.singleComparator
  | .between rule => sideSet (f rule.leftValue) (rule.leftComparator.getD .ne) ∩
      sideSet (f rule.rightValue) (rule.rightComparator.getD .ne)
  | .mod _ => ∅

end Order

/-- A range rule as `init` makes it: a comparator, or two brackets. -/
def ShardingRule.Ranged : ShardingRule → Prop
  | .single rule => rule.singleComparator ∈ [.eq, .gt, .ge, .lt, .le]
  | .between rule =>
    (rule.leftComparator = some .gt ∨ rule.leftComparator = some .ge) ∧
      (rule.rightComparator = some .lt ∨ rule.rightComparator = some .le)
  | .mod _ => False

def ShardingRule.nodes : ShardingRule → Nodes
  | .single rule => rule.shardingResult
  | .between rule => rule.shardingResult
  | .mod _ => ∅

/-! ## §2. Range rules. -/

/-- The values of a class stand in the order as `compareTo` has them. -/
def Placed {α : Type} [LinearOrder α] (c : JavaClass) (f : Value → α) : Prop :=
  ∀ v w, v.comparable = some c → w.comparable = some c → (f v < f w ↔ v.place < w.place)

def ExactTests {α : Type} [LinearOrder α] (c : JavaClass) (f : Value → α) (I : Set α)
    (interSects : Value → CompareType → Except Fault Bool) : Prop :=
  ∀ w compar, w.comparable = some c → compar ∈ [.eq, .gt, .ge, .lt, .le] →
    ∃ b, interSects w compar = .ok b ∧ (b = true ↔ (I ∩ sideSet (f w) compar).Nonempty)

section Tests

variable {α : Type} [LinearOrder α] [DenselyOrdered α] [NoMinOrder α] [NoMaxOrder α]
  {f : Value → α} {c : JavaClass} (hf : Placed c f)

include hf

omit [DenselyOrdered α] [NoMinOrder α] [NoMaxOrder α] in
theorem testCompare_placed {v w : Value} (hv : v.comparable = some c)
    (hw : w.comparable = some c) (test : Int → Bool) :
    testCompare v w test = .ok (test (comp (f v) (f w))) := by
  rw [testCompare_eq hv hw, comp, comp]
  simp only [hf v w hv hw, hf w v hw hv]

/-- The tests of a single rule are exact. -/
theorem single_exact {rule : SingleShardingRule} (hrule : rule.singleValue.comparable = some c)
    (hranged : rule.singleComparator ∈ [.eq, .gt, .ge, .lt, .le]) :
    ExactTests c f (ShardingRule.interval f (.single rule)) rule.interSects := by
  intro w compar hw hcompar
  unfold SingleShardingRule.interSects ShardingRule.interval
  simp only [hw, Option.isNone_some, Bool.false_eq_true, if_false, testCompare_placed hf hw hrule]
  generalize f w = x, f rule.singleValue = s
  -- there are values above both, and below both
  obtain ⟨u, hu⟩ := exists_gt (s ⊔ x)
  obtain ⟨hsu, hxu⟩ := max_lt_iff.mp hu
  obtain ⟨d, hd⟩ := exists_lt (s ⊓ x)
  obtain ⟨hds, hdx⟩ := lt_min_iff.mp hd
  have hge : (Set.Ici s ∩ Set.Ioi x).Nonempty := ⟨u, hsu.le, hxu⟩
  have hgt : (Set.Ioi s ∩ Set.Ici x).Nonempty := ⟨u, hsu, hxu.le⟩
  have hle : (Set.Iic s ∩ Set.Iio x).Nonempty := ⟨d, hds.le, hdx⟩
  have hlt : (Set.Iio s ∩ Set.Iic x).Nonempty := ⟨d, hds, hdx.le⟩
  simp only [mem_cons, not_mem_nil, or_false] at hcompar hranged
  rcases hcompar with rfl | rfl | rfl | rfl | rfl <;>
    rcases hranged with hr | hr | hr | hr | hr <;> rw [hr] <;> refine ⟨_, rfl, ?_⟩ <;>
    simp [sideSet, comp_neg_iff, comp_pos_iff, comp_nonneg_iff, comp_nonpos_iff, comp_eq_zero,
      Set.Iio_inter_Ioi, Set.Iic_inter_Ioi, Set.Iio_inter_Ici, Set.Iic_inter_Ici,
      Set.Ioi_inter_Iio, Set.Ioi_inter_Iic, Set.Ici_inter_Iio, Set.Ici_inter_Iic, *]
  all_goals grind

omit [NoMinOrder α] [NoMaxOrder α] in
/-- The tests of a between rule are exact. -/
theorem between_exact {rule : BetweenShardingRule} (hleft : rule.leftValue.comparable = some c)
    (hright : rule.rightValue.comparable = some c)
    (hranged : ShardingRule.Ranged (.between rule))
    (hne : (ShardingRule.interval f (.between rule)).Nonempty) :
    ExactTests c f (ShardingRule.interval f (.between rule)) rule.interSects := by
  intro w compar hw hcompar
  unfold BetweenShardingRule.interSects
  simp only [hw, Option.isNone_some, Bool.false_eq_true, if_false, testCompare_placed hf hw hleft,
    testCompare_placed hf hw hright]
  change (sideSet _ _ ∩ sideSet _ _).Nonempty at hne
  have hne' := Set.inter_comm (sideSet (f rule.leftValue) _) _ ▸ hne
  rw [ShardingRule.interval]
  obtain ⟨hl, hr⟩ := hranged
  -- a lower end is tested against the right bracket, an upper one against the left
  have hupper {k : CompareType} (hk : k = .gt ∨ k = .ge) := inter_nonempty_iff
    ((sideSet_upper (by rcases hl with hl | hl <;> simp [hl]) _).total
      (sideSet_upper hk (f w))) hne
  have hlower {k : CompareType} (hk : k = .lt ∨ k = .le) := inter_nonempty_iff
    ((sideSet_lower (by rcases hr with hr | hr <;> simp [hr]) _).total
      (sideSet_lower hk (f w))) hne'
  simp only [mem_cons, not_mem_nil, or_false] at hcompar
  rcases hcompar with rfl | rfl | rfl | rfl | rfl
  · rcases hl with hl | hl <;> rcases hr with hr | hr <;> rw [hl, hr] <;>
      exact ⟨_, bothTests_ok _ _, by simp [sideSet, comp_neg_iff, comp_pos_iff, comp_nonneg_iff,
        comp_nonpos_iff]⟩
  · rw [hupper (.inl rfl)]
    rcases hr with hr | hr <;> rw [hr] <;> refine ⟨_, rfl, ?_⟩ <;>
      simp [sideSet, comp_neg_iff, Set.Iic_inter_Ioi, Set.Iio_inter_Ioi]
  · rw [hupper (.inr rfl)]
    rcases hr with hr | hr <;> rw [hr] <;> refine ⟨_, rfl, ?_⟩ <;>
      simp [sideSet, comp_neg_iff, comp_nonpos_iff, Set.Iic_inter_Ici, Set.Iio_inter_Ici]
  · rw [Set.inter_comm (sideSet _ _), hlower (.inl rfl)]
    rcases hl with hl | hl <;> rw [hl] <;> refine ⟨_, rfl, ?_⟩ <;>
      simp [sideSet, comp_pos_iff, Set.Ici_inter_Iio, Set.Ioi_inter_Iio]
  · rw [Set.inter_comm (sideSet _ _), hlower (.inr rfl)]
    rcases hl with hl | hl <;> rw [hl] <;> refine ⟨_, rfl, ?_⟩ <;>
      simp [sideSet, comp_pos_iff, comp_nonneg_iff, Set.Ici_inter_Iic, Set.Ioi_inter_Iic]

end Tests

section Conditions

variable {α : Type} [LinearOrder α] {f : Value → α} {c : JavaClass} {I : Set α}
  {interSects : Value → CompareType → Except Fault Bool} (hexact : ExactTests c f I interSects)
  {values : List Value} (htyped : ∀ v ∈ values, v.comparable = some c)

include hexact htyped

theorem anyValue_exact : ∃ b, anyValue interSects values = .ok b ∧
    (b = true ↔ (I ∩ condSet f .in values).Nonempty) := by
  induction values with
  | nil => exact ⟨false, rfl, by simp [condSet]⟩
  | cons a values ih =>
    obtain ⟨hhead, htail⟩ := forall_mem_cons.mp htyped
    obtain ⟨b, hb, hiff⟩ := hexact a .eq hhead mem_cons_self
    obtain ⟨b', hb', hiff'⟩ := ih htail
    have hcond : I ∩ condSet f .in (a :: values) =
        (I ∩ {f a}) ∪ (I ∩ condSet f .in values) := by
      rw [← Set.inter_union_distrib_left]
      congr 1
      ext x
      simp [condSet]
    rw [hcond, Set.union_nonempty, anyValue, hb, ← hiff']
    cases b with
    | true => exact ⟨true, rfl, iff_of_true rfl (.inl (hiff.mp rfl))⟩
    | false => exact ⟨b', hb', (or_iff_right fun h => nomatch hiff.mpr h).symm⟩

omit htyped in
theorem bothTests_exact (hI : I.OrdConnected) {a b : Value} {left right : CompareType}
    (hleft : left = .gt ∨ left = .ge) (hright : right = .lt ∨ right = .le)
    (ha : a.comparable = some c) (hb : b.comparable = some c)
    (hne : (sideSet (f a) left ∩ sideSet (f b) right).Nonempty) :
    ∃ flag, bothTests (interSects a left) (interSects b right) = .ok flag ∧
      (flag = true ↔ (I ∩ (sideSet (f a) left ∩ sideSet (f b) right)).Nonempty) := by
  obtain ⟨l, hl, hliff⟩ := hexact a left ha (by rcases hleft with rfl | rfl <;> simp)
  obtain ⟨r, hr, hriff⟩ := hexact b right hb (by rcases hright with rfl | rfl <;> simp)
  refine ⟨l && r, by rw [hl, hr, bothTests_ok], ?_⟩
  rw [Bool.and_eq_true, hliff, hriff]
  constructor
  · rintro ⟨hl, hr⟩
    exact inter_nonempty_of_pairwise hI (sideSet_upper hleft _) (sideSet_lower hright _) hl hr hne
  · intro h
    exact ⟨h.mono (Set.inter_subset_inter_right I Set.inter_subset_left),
      h.mono (Set.inter_subset_inter_right I Set.inter_subset_right)⟩

/-- A rule is asked exactly if its interval meets the condition. -/
theorem expFlag_exact (hI : I.OrdConnected) {comparator : CompareType}
    (hne : (condSet f comparator values).Nonempty) :
    ∃ flag, expFlag interSects comparator values = .ok flag ∧
      (flag = true ↔ (I ∩ condSet f comparator values).Nonempty) := by
  by_cases hin : comparator = .in
  · exact hin ▸ anyValue_exact hexact htyped
  rcases values with _ | ⟨a, values⟩
  · cases comparator <;> first | exact absurd rfl hin | exact absurd hne Set.not_nonempty_empty
  obtain ⟨ha, htyped⟩ := forall_mem_cons.mp htyped
  have hone {k : CompareType} (hk) := hexact a k ha hk
  rcases values with _ | ⟨b, values⟩
  · cases comparator
    case eq | gt | ge | lt | le => exact hone (by simp)
    all_goals first | exact absurd rfl hin | exact absurd hne Set.not_nonempty_empty
  have htwo {l r : CompareType} (hl) (hr) := @bothTests_exact _ _ _ _ _ _ hexact hI a b l r hl hr ha
    (htyped b mem_cons_self)
  cases comparator
  case eq | gt | ge | lt | le => exact hone (by simp)
  case betweenLg => exact htwo (.inl rfl) (.inl rfl) hne
  case betweenLge => exact htwo (.inl rfl) (.inr rfl) hne
  case betweenLeg => exact htwo (.inr rfl) (.inl rfl) hne
  case betweenLege => exact htwo (.inr rfl) (.inr rfl) hne
  all_goals first | exact absurd rfl hin | exact absurd hne Set.not_nonempty_empty

end Conditions

/-- **Range rules are exact.**  In a dense order without end points, in which the values of
a class stand as `compareTo` has them, a rule with an interval gives its nodes for a
condition that some value satisfies exactly if some value of its interval does. -/
theorem range_rules_exact {α : Type} [LinearOrder α] [DenselyOrdered α] [NoMinOrder α]
    [NoMaxOrder α] {c : JavaClass} {f : Value → α} (hf : Placed c f) (digit : UInt16 → Option Nat)
    {rule : ShardingRule} (hranged : rule.Ranged) (hrule : rule.Typed c)
    (hne : (rule.interval f).Nonempty) {comparator : CompareType} {values : List Value}
    (htyped : ∀ v ∈ values, v.comparable = some c)
    (hcond : (condSet f comparator values).Nonempty) :
    ∃ flag, (flag = true ↔ (rule.interval f ∩ condSet f comparator values).Nonempty) ∧
      rule.expSharding digit comparator values = .ok (if flag then rule.nodes else ∅) := by
  cases rule with
  | mod rule => exact hranged.elim
  | single rule =>
    have hI : (ShardingRule.interval f (.single rule)).OrdConnected := by
      change (sideSet _ _).OrdConnected
      unfold sideSet
      split
      · exact Set.ordConnected_singleton
      · exact Set.ordConnected_Ioi
      · exact Set.ordConnected_Ici
      · exact Set.ordConnected_Iio
      · exact Set.ordConnected_Iic
      · exact Set.ordConnected_empty
    obtain ⟨b, hb, hiff⟩ := expFlag_exact (single_exact hf hrule hranged) htyped hI hcond
    exact ⟨b, hiff, nodesIf_ok hb _⟩
  | between rule =>
    have hI : (ShardingRule.interval f (.between rule)).OrdConnected := by
      obtain ⟨hl, hr⟩ := hranged
      exact (sideSet_upper (by rcases hl with hl | hl <;> simp [hl]) _).ordConnected.inter
        (sideSet_lower (by rcases hr with hr | hr <;> simp [hr]) _).ordConnected
    obtain ⟨b, hb, hiff⟩ := expFlag_exact (between_exact hf hrule.1 hrule.2 hranged hne) htyped hI
      hcond
    exact ⟨b, hiff, nodesIf_ok hb _⟩

/-- Whole numbers among the fractions: a rule `> 3` and the condition `< 4`. -/
theorem range_rules_exact_longs :
    ShardingRule.expSharding (fun _ => none) .lt [.long 4] (.single ⟨.gt, .long 3, {7}⟩) =
      .ok {7} := by
  let f : Value → ℚ := fun v => v.place.headD 0
  have hf : Placed .long f := by
    intro v w hv hw
    cases v <;> cases hv
    cases w <;> cases hw
    simp [f, Value.place, cons_lt_cons_iff]
  have hranged : ShardingRule.Ranged (.single ⟨.gt, .long 3, {7}⟩) := by
    simp [ShardingRule.Ranged]
  have hcond : (condSet f .lt [.long 4]).Nonempty := Set.nonempty_Iio
  obtain ⟨flag, hiff, hexp⟩ := range_rules_exact hf (fun _ => none) hranged rfl Set.nonempty_Ioi
    (by decide) hcond
  have hflag : flag = true := hiff.mpr ⟨7 / 2, by show (3 : ℚ) < 7 / 2; norm_num, by
    show (7 / 2 : ℚ) < 4; norm_num⟩
  rw [hexp, hflag]
  rfl

/-! ## §3. Modulo rules. -/

namespace ModShardingRule

variable (digit : UInt16 → Option Nat) (rule : ModShardingRule)

/-- The value is refused, or goes to a group of the rule that has a node. -/
def HasHome (v : Value) : Prop :=
  rule.equalSharding digit v = .error .sqlExecute ∨
    ∃ (i : Nat) (nodes : Nodes), (i : Int) < rule.modValue.toInt ∧
      rule.shardingResult[i]? = some nodes ∧ nodes ≠ ∅ ∧ rule.equalSharding digit v = .ok nodes

/-- The characters of a value. -/
def text : Value → List UInt16
  | .long n => decimal n
  | .integer n => decimal n.toInt64
  | .string str => str
  | _ => []

/-- The value as a whole number: without positions the number it is or the hash of its
characters. -/
def wholeNumber : Value → Int
  | .long n => n.toInt
  | .integer n => n.toInt64.toInt
  | .string str => (stringHash str).toInt64.toInt
  | _ => -1

/-- The digit at a position, counted from the end if it is negative. -/
def digitAt (str : List UInt16) (p : Int32) : Option Nat :=
  let index := if p.toInt < 0 then p.toInt + str.length else p.toInt
  if index ≥ str.length || index < 0 then none else (str[index.toNat]?).bind digit

/-- The number the value is placed by: with positions the one of their digits, in 64 bits. -/
def keyNumber (v : Value) : Option Int :=
  if rule.modPosition = [] then some (wholeNumber v)
  else (rule.modPosition.mapM (digitAt digit (text v))).map fun ds =>
    (ds.foldl (fun (n : Int) (d : Nat) => n * 10 + d) 0).bmod (2 ^ 64)

/-- The remainder of the number, cut to an `int`, is the place of a group with a node. -/
def Placed (v : Value) : Prop :=
  ∀ n, rule.keyNumber digit v = some n → ∃ (i : Nat) (nodes : Nodes),
    (n.tmod rule.modValue.toInt).bmod (2 ^ 32) = i ∧ rule.shardingResult[i]? = some nodes ∧
      nodes ≠ ∅

variable {digit rule} {v : Value}

/-- The digits at the positions, as a number. -/
theorem digitsAt_eq (str : List UInt16) (ps : List Int32) (value : Int) :
    (∃ e, ps.mapM (digitAt digit str) = none ∧
        digitsAt digit str ps (Int64.ofInt value) = .error e) ∨
      ∃ ds, ps.mapM (digitAt digit str) = some ds ∧ digitsAt digit str ps (Int64.ofInt value) =
        .ok (Int64.ofInt (ds.foldl (fun (n : Int) (d : Nat) => n * 10 + d) value)) := by
  induction ps generalizing value with
  | nil => exact .inr ⟨[], rfl, rfl⟩
  | cons p ps ih =>
    simp only [mapM_cons, digitAt, digitsAt, Option.bind_eq_bind]
    generalize (if p.toInt < 0 then p.toInt + str.length else p.toInt) = index
    by_cases hout : (index ≥ str.length || index < 0) = true
    · simp only [if_pos hout]
      exact .inl ⟨_, rfl, rfl⟩
    · simp only [if_neg hout]
      cases (str[index.toNat]?).bind digit with
      | none => exact .inl ⟨_, rfl, rfl⟩
      | some d =>
        have hnext : Int64.ofInt value * 10 + Int64.ofNat d = Int64.ofInt (value * 10 + d) := by
          rw [Int64.ofInt_add, Int64.ofInt_mul]
          rfl
        simp only [hnext]
        rcases ih (value * 10 + d) with ⟨e, hnone, herr⟩ | ⟨ds, hsome, hok⟩
        · exact .inl ⟨e, by simp [hnone], herr⟩
        · exact .inr ⟨d :: ds, by simp [hsome], hok⟩

theorem modIndex_toInt (n : Int64) :
    (rule.modIndex n).toInt = (n.toInt.tmod rule.modValue.toInt).bmod (2 ^ 32) := by
  rw [modIndex, Int64.toInt_toInt32, Int64.toInt_mod]

/-- A remainder that is no negative `int` when cut is below the modulus. -/
theorem remainder_lt (n : Int) (h : 0 ≤ (n.tmod rule.modValue.toInt).bmod (2 ^ 32)) :
    (n.tmod rule.modValue.toInt).bmod (2 ^ 32) < rule.modValue.toInt := by
  have hpos := rule.modValue_pos
  have hlt := Int.tmod_lt_of_pos n hpos
  have hgt : -rule.modValue.toInt < n.tmod rule.modValue.toInt := by
    have := Int.tmod_lt_of_pos (-n) hpos
    rw [Int.neg_tmod] at this
    omega
  rw [Int.bmod_def] at *
  omega

variable (hv : v.comparable ∈ [some .integer, some .long, some .string])

include hv

/-- The remainder of the key's number. -/
theorem calcModIndex_eq :
    (rule.keyNumber digit v = none ∧ ∃ e, rule.calcModIndex digit v = .error e) ∨
      ∃ n i, rule.keyNumber digit v = some n ∧ rule.calcModIndex digit v = .ok i ∧
        i.toInt = (n.tmod rule.modValue.toInt).bmod (2 ^ 32) := by
  by_cases hpos : rule.modPosition = []
  · -- the remainder of the number itself
    refine .inr ⟨wholeNumber v, ?_⟩
    cases v
    case long n | integer n | string n =>
      exact ⟨_, by simp [keyNumber, hpos],
        by simp only [calcModIndex, calcModIndexLong, calcModIndexString, if_pos hpos],
        modIndex_toInt _⟩
    all_goals simp [Value.comparable] at hv
  · have hindex : rule.calcModIndex digit v =
        (digitsAt digit (text v) rule.modPosition (Int64.ofInt 0)).map rule.modIndex := by
      cases v
      case long n | integer n | string n =>
        simp only [calcModIndex, calcModIndexLong, calcModIndexString, if_neg hpos, text]
        rfl
      all_goals simp [Value.comparable] at hv
    rcases @digitsAt_eq digit (text v) rule.modPosition 0 with
      ⟨e, hnone, herr⟩ | ⟨ds, hsome, hok⟩
    · refine .inl ⟨by simp [keyNumber, hpos, hnone], e, ?_⟩
      rw [hindex, herr]
      rfl
    · refine .inr ⟨_, _, by rw [keyNumber, if_neg hpos, hsome]; rfl, by rw [hindex, hok]; rfl, ?_⟩
      rw [modIndex_toInt, Int64.toInt_ofInt]
      rfl

/-- When a value has a group. -/
theorem hasHome_iff : rule.HasHome digit v ↔ rule.Placed digit v := by
  unfold HasHome Placed equalSharding
  rcases @calcModIndex_eq digit rule _ hv with
    ⟨hnone, e, herr⟩ | ⟨n, i, hsome, hok, hi⟩
  · simp [hnone, herr]
  simp only [hsome, hok, Option.some.injEq, forall_eq', ← hi]
  by_cases hpos : i.toInt ≥ 0
  · rw [if_pos hpos]
    have hlt : i.toInt < rule.modValue.toInt := hi ▸ remainder_lt n (hi ▸ hpos)
    cases hnodes : rule.shardingResult[i.toInt.toNat]? with
    | none =>
      constructor
      · rintro (h | ⟨-, _, -, -, -, h⟩) <;> cases h
      · rintro ⟨k, nodes, hk, hget, -⟩
        rw [hk, Int.toNat_natCast, hget] at hnodes
        cases hnodes
    | some nodes =>
      simp only [reduceCtorEq, false_or, Except.ok.injEq]
      constructor
      · rintro ⟨-, _, -, -, hne, rfl⟩
        exact ⟨i.toInt.toNat, nodes, by omega, hnodes, hne⟩
      · rintro ⟨k, nodes', hk, hget, hne⟩
        rw [hk, Int.toNat_natCast, hget] at hnodes
        cases hnodes
        exact ⟨k, nodes, by omega, hget, hne, rfl⟩
  · rw [if_neg hpos]
    constructor
    · rintro (h | ⟨-, _, -, -, hne, h⟩)
      · cases h
      · exact absurd (Except.ok.inj h).symm hne
    · rintro ⟨k, -, hk, -⟩
      omega

end ModShardingRule

/-- **Homes of values under a modulo rule.**  A value is refused or goes to a group of the
rule exactly if its remainder is the place of one; an Integer goes where the equal Long
does; and what a condition is sent to has the group of every value that satisfies it. -/
theorem mod_sharding_home (digit : UInt16 → Option Nat) (rule : ModShardingRule) :
    (∀ v : Value, v.comparable ∈ [some .integer, some .long, some .string] →
      (rule.HasHome digit v ↔ rule.Placed digit v)) ∧
    (∀ n : Int32, rule.equalSharding digit (.integer n) =
      rule.equalSharding digit (.long n.toInt64)) ∧
    ∀ v comparator values nodes, CondHolds v comparator values →
      rule.equalSharding digit v = .ok nodes →
      rule.expSharding digit comparator values = .error .sqlExecute ∨
        ∃ result, rule.expSharding digit comparator values = .ok result ∧ nodes ⊆ result :=
  ⟨fun _ => ModShardingRule.hasHome_iff, fun _ => rfl,
    fun _ _ _ _ => ModShardingRule.expSharding_superset digit⟩

def thirds : ModShardingRule := ⟨3, by decide, [], [{1}, {2}, {3}]⟩

theorem mod_sharding_home_four : thirds.HasHome (fun _ => none) (.long 4) := by
  refine ((mod_sharding_home (fun _ => none) thirds).1 (.long 4) (by decide)).mpr ?_
  rintro n ⟨⟩
  exact ⟨1, {2}, by decide, rfl, by decide⟩

theorem negative_value_homeless :
    ¬thirds.HasHome (fun _ => none) (.long (-4)) ∧
      ModShardingRule.equalSharding (fun _ => none) ⟨3, by decide, [], [{1}, {2}]⟩ (.long 2) =
        .error .indexOutOfBounds := by
  have hnone : thirds.equalSharding (fun _ => none) (.long (-4)) = .ok ∅ := by decide +kernel
  refine ⟨?_, by decide +kernel⟩
  rintro (h | ⟨-, nodes, -, -, hne, h⟩)
  · cases hnone.symm.trans h
  · exact hne (Except.ok.inj (h.symm.trans hnone))

end Mile.Merge
