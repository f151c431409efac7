/-
  Mile.DocDb.SuffixSets
  ─────────────────────
  **INDEX CONDITIONS AS SET EXPRESSIONS** (`storage/docdb/suffix.c`).

  An array of conditions in suffix form stands for an expression of sets, one set of rows for each
  segment.
-/
import Mile.DocDb.Suffix

namespace Mile.DocDb

open Lib Common List

/-! ## §1. Results as sets. -/

section Denotes

variable {S : Type}

def Denotes (r : Option (RowidList S)) (A : Set UInt32) : Prop :=
  ∃ xs, ResultHolds r xs ∧ xs.Pairwise (· > ·) ∧ ∀ x, x ∈ xs ↔ x ∈ A

def rowSet (r : Option (RowidList S)) : Set UInt32 := {x | ∃ xs, ResultHolds r xs ∧ x ∈ xs}

/-- The rows that the index of a segment has for a value. -/
def indexRows (table : QueryTable S) (alg : IndexKeyAlg) (sid : Nat) (v : LowData) : Set UInt32 :=
  {x | ∃ r, table.indexes.equalQuery alg sid v = some r ∧ x ∈ rowSet r}

theorem denotes_rowSet {r : Option (RowidList S)} {xs : List UInt32} (h : ResultHolds r xs)
    (hdesc : xs.Pairwise (· > ·)) : Denotes r (rowSet r) := by
  refine ⟨xs, h, hdesc, fun x => ⟨fun hx => ⟨xs, h, hx⟩, ?_⟩⟩
  rintro ⟨ys, hys, hx⟩
  rwa [h.unique hys]

/-- A list of segments `sids` whose results are described by `ds`. -/
inductive Pairs {δ : Type} (D : Option (RowidList S) → δ → Prop) :
    List Nat → SegRowids S → List δ → Prop where
  | nil : Pairs D [] [] []
  | cons {sid r d sids list ds} : D r d → Pairs D sids list ds →
      Pairs D (sid :: sids) ((sid, r) :: list) (d :: ds)

variable {δ : Type} {D : Option (RowidList S) → δ → Prop}
  {f : Option (RowidList S) → Option (RowidList S) → Option (Option (RowidList S))}

/-- **The parallel walk** over results of the first segments of a list ends with
the shorter one. -/
theorem Pairs.segPairs_take {g : δ → δ → δ}
    (hf : ∀ a b d e, D a d → D b e → ∃ r, f a b = some r ∧ D r (g d e)) (sids : List Nat) :
    ∀ {m n : Nat} {lista listb : SegRowids S} {ds es : List δ},
      Pairs D (sids.take m) lista ds → Pairs D (sids.take n) listb es →
      ∃ list, segPairs f lista listb = .ok list ∧
        Pairs D (sids.take (min m n)) list (zipWith g ds es) := by
  induction sids with
  | nil =>
    intro m n lista listb ds es ha hb
    rw [take_nil] at ha hb ⊢
    cases ha
    exact ⟨[], rfl, .nil⟩
  | cons sid sids ih =>
    intro m n lista listb ds es ha hb
    match m, n with
    | 0, n =>
      cases ha
      exact ⟨[], rfl, by rw [Nat.zero_min]; exact .nil⟩
    | m + 1, 0 =>
      cases ha with
      | cons _ _ =>
        cases hb
        exact ⟨[], rfl, .nil⟩
    | m + 1, n + 1 =>
      cases ha with
      | cons hd hresta =>
        cases hb with
        | cons he hrestb =>
          obtain ⟨r, hr, hD⟩ := hf _ _ _ _ hd he
          obtain ⟨list, hlist, hpairs⟩ := ih hresta hrestb
          refine ⟨(sid, r) :: list, ?_, ?_⟩
          · simp only [DocDb.segPairs, ne_eq, not_true_eq_false, if_false, hr, hlist]
          · rw [Nat.succ_min_succ]
            exact .cons hD hpairs

theorem Pairs.segPairs {g : δ → δ → δ}
    (hf : ∀ a b d e, D a d → D b e → ∃ r, f a b = some r ∧ D r (g d e)) {sids : List Nat}
    {lista listb : SegRowids S} {ds es : List δ} (ha : Pairs D sids lista ds)
    (hb : Pairs D sids listb es) :
    ∃ list, segPairs f lista listb = .ok list ∧ Pairs D sids list (zipWith g ds es) := by
  rw [← take_length (l := sids)] at ha hb ⊢
  simpa using Pairs.segPairs_take hf sids ha hb

theorem Pairs.imp {δ' : Type}
    {D' : Option (RowidList S) → δ' → Prop} {h : Option (RowidList S) → δ'}
    (hD : ∀ r d, D r d → D' r (h r)) {sids : List Nat} {list : SegRowids S} {ds : List δ}
    (hp : Pairs D sids list ds) : Pairs D' sids list (list.map fun p => h p.2) := by
  induction hp with
  | nil => exact .nil
  | cons hd _ ih => exact .cons (hD _ _ hd) ih

theorem pairs_mapM {q : Nat → Option (Option (RowidList S))} {h : Nat → δ}
    (hq : ∀ sid r, q sid = some r → D r (h sid)) {sids : List Nat}
    {rs : List (Option (RowidList S))} (hrs : sids.mapM q = some rs) :
    Pairs D sids (sids.zip rs) (sids.map h) := by
  induction sids generalizing rs with
  | nil =>
    cases hrs
    exact .nil
  | cons sid sids ih =>
    rw [mapM_cons] at hrs
    obtain ⟨r, hr, hrs⟩ := Option.bind_eq_some_iff.mp hrs
    obtain ⟨rs', hrs', hrs⟩ := Option.bind_eq_some_iff.mp hrs
    cases hrs
    exact .cons (hq sid r hr) (ih hrs')

theorem Pairs.append {sids sids' : List Nat} {list list' : SegRowids S} {ds ds' : List δ}
    (h : Pairs D sids list ds) (h' : Pairs D sids' list' ds') :
    Pairs D (sids ++ sids') (list ++ list') (ds ++ ds') := by
  induction h with
  | nil => exact h'
  | cons hd _ ih => exact .cons hd ih

theorem Pairs.reverse {sids : List Nat} {list : SegRowids S} {ds : List δ}
    (h : Pairs D sids list ds) : Pairs D sids.reverse list.reverse ds.reverse := by
  induction h with
  | nil => exact .nil
  | cons hd _ ih =>
    simp only [reverse_cons]
    exact ih.append (.cons hd .nil)

variable [Zero S] [Add S] {a b : Option (RowidList S)} {A B : Set UInt32}

theorem Denotes.union (ha : Denotes a A) (hb : Denotes b B) :
    ∃ r, rowidUnion a b = some r ∧ Denotes r (A ∪ B) := by
  obtain ⟨xs, hxs, hx, hA⟩ := ha
  obtain ⟨ys, hys, hy, hB⟩ := hb
  obtain ⟨r, hr, hholds⟩ := rowidUnion_holds hxs hys
  refine ⟨r, hr, _, hholds, mergeDesc_desc hx hy, fun x => ?_⟩
  rw [mem_mergeDesc, hA, hB]
  rfl

theorem Denotes.intersection (ha : Denotes a A) (hb : Denotes b B) :
    ∃ r, rowidIntersection a b = some r ∧ Denotes r (A ∩ B) := by
  obtain ⟨xs, hxs, hx, hA⟩ := ha
  obtain ⟨ys, hys, hy, hB⟩ := hb
  obtain ⟨r, hr, hholds⟩ := rowidIntersection_holds hx hy hxs hys
  refine ⟨r, hr, _, hholds, hx.sublist filter_sublist, fun x => ?_⟩
  rw [mem_filter, decide_eq_true_iff, hA, hB]
  rfl

omit [Add S] in
theorem Denotes.minus (ha : Denotes a A) (hb : Denotes b B) :
    ∃ r, rowidMinus a b = some r ∧ Denotes r (A \ B) := by
  obtain ⟨xs, hxs, hx, hA⟩ := ha
  obtain ⟨ys, hys, hy, hB⟩ := hb
  obtain ⟨r, hr, hholds⟩ := rowidMinus_holds hx hy hxs hys
  refine ⟨r, hr, _, hholds, hx.sublist filter_sublist, fun x => ?_⟩
  rw [mem_filter, decide_eq_true_iff, hA, hB]
  rfl

end Denotes

/-! ## §2. The sets of an expression. -/

section Rows

variable {S : Type} [Zero S] [Add S] [Sub S] [LT S] [DecidableLT S]
  (w : Weights S) (table : QueryTable S) (segList : List Nat)

/-- The rows of a leaf, segment by segment in the order of results: those of its
value, those of any of its values, or what the fulltext match selects. -/
def leafRows (cond : IndexCondition) : List (Set UInt32) :=
  match cond.comparator with
  | .eq =>
    match cond.values with
    | [] => []
    | v :: _ => segList.reverse.map fun sid => indexRows table .hash sid v
  | .in => segList.reverse.map fun sid => {x | ∃ v ∈ cond.values, x ∈ indexRows table .hash sid v}
  | .match =>
    match fulltextMatch w table segList cond.values with
    | .ok list => list.map fun p => rowSet p.2
    | .error _ => []
  | _ => []

def SetOp.rows : SetOp → Set UInt32 → Set UInt32 → Set UInt32
  | .and => (· ∩ ·)
  | .or => (· ∪ ·)
  | .minus => (· \ ·)

def exprRows : BinTree IndexCondition SetOp → List (Set UInt32)
  | .leaf cond => leafRows w table segList cond
  | .node op l r => zipWith op.rows (exprRows l) (exprRows r)

end Rows

def IndexCondition.item (cond : IndexCondition) : Item IndexCondition SetOp :=
  match cond.type with
  | .logicAnd => .operator .and
  | .logicOr => .operator .or
  | .setMinus => .operator .minus
  | _ => .operand cond

def Spells (conds : List IndexCondition) (t : BinTree IndexCondition SetOp) : Prop :=
  conds.map IndexCondition.item = t.items

/-- `IN` has a value. -/
def IndexCondition.SomeIn (cond : IndexCondition) : Prop :=
  cond.comparator = .in → cond.values ≠ []

/-! ## §3. The leaves. -/

section Leaves

variable {S : Type} [Zero S] [Add S] [Sub S] [LT S] [DecidableLT S]
  (w : Weights S) (table : QueryTable S) (segList : List Nat)

/-- What the loop of the fulltext match keeps: descending rowids with scores. -/
def Ranked (r : Option (RowidList S)) (_ : Unit) : Prop :=
  (∃ xs, ResultHolds r xs ∧ xs.Pairwise (· > ·)) ∧ ResultScored r

omit [Sub S] [LT S] [DecidableLT S] in
theorem Ranked.union (a b : Option (RowidList S)) (d e : Unit) (ha : Ranked a d)
    (hb : Ranked b e) : ∃ r, rowidUnion a b = some r ∧ Ranked r () := by
  obtain ⟨⟨xs, hxs, hx⟩, has⟩ := ha
  obtain ⟨⟨ys, hys, hy⟩, hbs⟩ := hb
  obtain ⟨r, hr, hholds⟩ := rowidUnion_holds hxs hys
  exact ⟨r, hr, ⟨_, hholds, mergeDesc_desc hx hy⟩, rowidUnion_scored hxs has hys hbs hr⟩

omit [Sub S] [LT S] [DecidableLT S] in
theorem Ranked.hence (a b : Option (RowidList S)) (d e : Unit) (ha : Ranked a d)
    (hb : Ranked b e) : ∃ r, rowidFulltextHence a b = some r ∧ Ranked r () := by
  obtain ⟨⟨xs, hxs, hx⟩, has⟩ := ha
  obtain ⟨⟨ys, hys, hy⟩, hbs⟩ := hb
  obtain ⟨r, zs, hr, hholds, hsub, hscored⟩ := rowidFulltextHence_holds hx hy hxs has hys hbs
  exact ⟨r, hr, ⟨zs, hholds, hx.sublist hsub⟩, hscored⟩

omit [Add S] [Sub S] [LT S] [DecidableLT S] in
theorem segRowidSetscore_ranked (score : S) {δ : Type} {D : Option (RowidList S) → δ → Prop}
    (hD : ∀ r d, D r d → ∃ xs, ResultHolds r xs ∧ xs.Pairwise (· > ·)) {sids : List Nat}
    {list : SegRowids S} {ds : List δ} (h : Pairs D sids list ds) :
    ∃ list' us, segRowidSetscore score list = .ok list' ∧ Pairs Ranked sids list' us := by
  induction h with
  | nil => exact ⟨[], [], rfl, .nil⟩
  | cons hd _ ih =>
    obtain ⟨xs, hxs, hx⟩ := hD _ _ hd
    obtain ⟨r', hr', hholds, hscored⟩ := rowidListSetscore_holds score hxs
    obtain ⟨list', us, hlist, hpairs⟩ := ih
    refine ⟨_, () :: us, ?_, .cons ⟨⟨xs, hholds, hx⟩, hscored⟩ hpairs⟩
    simp only [segRowidSetscore, hr', hlist]

omit [Zero S] [Add S] [Sub S] [LT S] [DecidableLT S] in
/-- A query for a value fails or gives its rows. -/
theorem indexEqualQuery_cases (alg : IndexKeyAlg) (v : LowData) :
    (∃ e, indexEqualQuery table segList alg v = .error e) ∨
      ∃ list, indexEqualQuery table segList alg v = .ok list ∧
        Pairs Denotes segList.reverse list
          (segList.reverse.map fun sid => indexRows table alg sid v) := by
  unfold indexEqualQuery
  split
  · exact .inl ⟨_, rfl⟩
  · split
    · exact .inl ⟨_, rfl⟩
    · split
      · next rs hrs =>
          refine .inr ⟨_, rfl, ?_⟩
          rw [map_reverse]
          refine (pairs_mapM (fun sid r hr => ?_) hrs).reverse
          obtain ⟨xs, hxs, hx⟩ := table.indexes.desc hr
          have hrows : indexRows table alg sid v = rowSet r := by
            ext x
            simp [indexRows, hr]
          rw [hrows]
          exact denotes_rowSet hxs hx
      · exact .inl ⟨_, rfl⟩

omit [Add S] [Sub S] [LT S] [DecidableLT S] in
theorem wordQuery_cases (word : FulltextWord S) :
    (∃ e, wordQuery table segList word = .error e) ∨
      ∃ list us, wordQuery table segList word = .ok list ∧
        Pairs Ranked segList.reverse list us := by
  unfold wordQuery
  rcases indexEqualQuery_cases table segList .fulltext word.value with
    ⟨e, he⟩ | ⟨list, hlist, hpairs⟩
  · rw [he]
    exact .inl ⟨e, rfl⟩
  · rw [hlist]
    refine .inr ?_
    exact segRowidSetscore_ranked word.weight (fun r A hA => ⟨hA.choose, hA.choose_spec.1,
      hA.choose_spec.2.1⟩) hpairs

/-- A full-text search fails or gives scored lists. -/
theorem matchLoop_cases (weightSum : S) (words : List (FulltextWord S)) :
    ∀ (weightCur : S) {ret : SegRowids S} {us : List Unit}, Pairs Ranked segList.reverse ret us →
      (∃ e, matchLoop w table segList weightSum weightCur ret words = .error e) ∨
        ∃ list us', matchLoop w table segList weightSum weightCur ret words = .ok list ∧
          Pairs Ranked segList.reverse list us' := by
  induction words with
  | nil => exact fun _ ret us h => .inr ⟨ret, us, rfl, h⟩
  | cons word words ih =>
    intro weightCur ret us h
    unfold matchLoop
    by_cases hstop : 10000 < word.count
    · rw [if_pos hstop]
      exact .inr ⟨ret, us, rfl, h⟩
    · rw [if_neg hstop]
      rcases wordQuery_cases table segList word with ⟨e, he⟩ | ⟨tmp, vs, htmp, hpairs⟩
      · rw [he]
        exact .inl ⟨e, rfl⟩
      · rw [htmp]
        -- both operations keep the rowids ranked
        obtain ⟨ret', hret', hnext⟩ : ∃ ret', addWord ret tmp = .ok ret' ∧
            Pairs Ranked segList.reverse ret' (zipWith (fun _ _ => ()) us vs) := by
          unfold addWord
          split
          · exact h.segPairs Ranked.union hpairs
          · exact h.segPairs Ranked.hence hpairs
        simp only [bind, Except.bind, hret']
        split
        · exact .inr ⟨ret', _, rfl, hnext⟩
        · exact ih _ hnext

theorem fulltextMatch_cases (values : List LowData) :
    (∃ e, fulltextMatch w table segList values = .error e) ∨
      ∃ list us, fulltextMatch w table segList values = .ok list ∧
        Pairs Ranked segList.reverse list us := by
  unfold fulltextMatch
  split
  · exact .inl ⟨_, rfl⟩
  · exact .inl ⟨_, rfl⟩
  · next first words _ =>
      simp only
      rcases wordQuery_cases table segList first with ⟨e, he⟩ | ⟨ret, us, hret, hpairs⟩
      · rw [he]
        exact .inl ⟨e, rfl⟩
      · rw [hret]
        exact matchLoop_cases w table segList _ words first.weight hpairs

omit [Sub S] [LT S] [DecidableLT S] in
/-- The union over the values of an IN. -/
theorem inLoop_cases (vs : List LowData) :
    ∀ {ret : SegRowids S} {A : Nat → Set UInt32},
      Pairs Denotes segList.reverse ret (segList.reverse.map A) →
      (∃ e, vs.foldlM (fun ret v => do
          let tmp ← indexEqualQuery table segList .hash v
          segRowidUnion ret tmp) ret = .error e) ∨
        ∃ list, vs.foldlM (fun ret v => do
            let tmp ← indexEqualQuery table segList .hash v
            segRowidUnion ret tmp) ret = .ok list ∧
          Pairs Denotes segList.reverse list (segList.reverse.map fun sid =>
            A sid ∪ {x | ∃ v ∈ vs, x ∈ indexRows table .hash sid v}) := by
  induction vs with
  | nil =>
    intro ret A h
    refine .inr ⟨ret, rfl, ?_⟩
    simpa using h
  | cons v vs ih =>
    intro ret A h
    rw [foldlM_cons]
    rcases indexEqualQuery_cases table segList .hash v with ⟨e, he⟩ | ⟨tmp, htmp, hpairs⟩
    · rw [he]
      exact .inl ⟨e, rfl⟩
    · obtain ⟨ret', hret', hnext⟩ := h.segPairs (fun a b A B => Denotes.union) hpairs
      rw [zipWith_map, zipWith_self] at hnext
      have hunion : segRowidUnion ret tmp = .ok ret' := hret'
      simp only [bind, Except.bind, htmp, hunion]
      rcases ih hnext with hnull | ⟨list, hlist, hrows⟩
      · exact .inl hnull
      · refine .inr ⟨list, hlist, ?_⟩
        convert hrows using 3 with sid
        ext x
        simp only [Set.mem_union, Set.mem_ofPred_eq, mem_cons]
        constructor
        · rintro (hx | ⟨u, rfl | hu, hx⟩)
          · exact .inl (.inl hx)
          · exact .inl (.inr hx)
          · exact .inr ⟨u, hu, hx⟩
        · rintro ((hx | hx) | ⟨u, hu, hx⟩)
          · exact .inl hx
          · exact .inr ⟨v, .inl rfl, hx⟩
          · exact .inr ⟨u, .inr hu, hx⟩

/-- What a leaf can return. -/
inductive LeafResult (cond : IndexCondition) : Except QueryStop (SegRowids S) → Prop where
  | stop (e) : LeafResult cond (.error e)
  | rows {list} : Pairs Denotes segList.reverse list (leafRows w table segList cond) →
      LeafResult cond (.ok list)
  | noSegments : ¬ cond.SomeIn → LeafResult cond (.ok [])

/-- The results of a leaf. -/
theorem hashCompareValue_result (cond : IndexCondition) :
    LeafResult w table segList cond (hashCompareValue w table segList cond) := by
  obtain ⟨type, comparator, values⟩ := cond
  cases comparator with
  | eq =>
    cases values with
    | nil => exact .stop _
    | cons v vs =>
      rcases indexEqualQuery_cases table segList .hash v with ⟨e, he⟩ | ⟨list, hlist, hrows⟩
      · simp only [hashCompareValue, he]
        exact .stop e
      · simp only [hashCompareValue, hlist]
        exact .rows hrows
  | «in» =>
    cases values with
    | nil => exact .noSegments fun h => h rfl rfl
    | cons v vs =>
      simp only [hashCompareValue]
      rcases indexEqualQuery_cases table segList .hash v with ⟨e, he⟩ | ⟨ret, hret, hpairs⟩
      · rw [he]
        exact .stop e
      · rw [hret]
        rcases inLoop_cases table segList vs hpairs with ⟨e, he⟩ | ⟨list, hlist, hrows⟩
        · simp only [bind, Except.bind] at he ⊢
          rw [he]
          exact .stop e
        · simp only [bind, Except.bind] at hlist ⊢
          rw [hlist]
          refine .rows ?_
          simp only [leafRows]
          convert hrows using 3 with sid
          ext x
          simp
  | «match» =>
    rcases fulltextMatch_cases w table segList values with ⟨e, he⟩ | ⟨list, us, hlist, hpairs⟩
    · simp only [hashCompareValue, he]
      exact .stop e
    · simp only [hashCompareValue, hlist]
      refine .rows ?_
      simp only [leafRows, hlist]
      exact hpairs.imp fun r _ h => denotes_rowSet h.1.choose_spec.1 h.1.choose_spec.2
  | _ => exact .stop _

end Leaves

/-! ## §4. Expressions. -/

section Expressions

variable {S : Type} [Zero S] [Add S] [Sub S] [LT S] [DecidableLT S]
  (w : Weights S) (table : QueryTable S) (segList : List Nat)

omit [Sub S] [LT S] [DecidableLT S] in
theorem SetOp.apply_rows_take (op : SetOp) (sids : List Nat) {m n : Nat}
    {left right : SegRowids S} {As Bs : List (Set UInt32)}
    (hl : Pairs Denotes (sids.take m) left As) (hr : Pairs Denotes (sids.take n) right Bs) :
    ∃ list, op.apply left right = .ok list ∧
      Pairs Denotes (sids.take (min m n)) list (zipWith op.rows As Bs) := by
  cases op with
  | and => exact Pairs.segPairs_take (fun a b A B => Denotes.intersection) sids hl hr
  | or => exact Pairs.segPairs_take (fun a b A B => Denotes.union) sids hl hr
  | minus => exact Pairs.segPairs_take (fun a b A B => Denotes.minus) sids hl hr

omit [Sub S] [LT S] [DecidableLT S] in
theorem SetOp.apply_rows (op : SetOp) {sids : List Nat} {left right : SegRowids S}
    {As Bs : List (Set UInt32)} (hl : Pairs Denotes sids left As)
    (hr : Pairs Denotes sids right Bs) :
    ∃ list, op.apply left right = .ok list ∧
      Pairs Denotes sids list (zipWith op.rows As Bs) := by
  rw [← take_length (l := sids)] at hl hr ⊢
  simpa using op.apply_rows_take sids hl hr

/-- The loop is the stack machine on the items. -/
theorem queryLoop_eq_exec (conds : List IndexCondition)
    (hkinds : ∀ c ∈ conds, c.type ≠ .unionHashExp) (stack : List (SegRowids S)) :
    queryLoop w table segList conds stack =
      exec (hashCompareValue w table segList) SetOp.apply .null
        (conds.map IndexCondition.item) stack := by
  induction conds generalizing stack with
  | nil => rfl
  | cons cond conds ih =>
    rw [forall_mem_cons] at hkinds
    have ih := ih hkinds.2
    have hop : ∀ op : SetOp, (do queryLoop w table segList conds (← hashSetOperations op stack)) =
        exec (hashCompareValue w table segList) SetOp.apply .null
          (.operator op :: conds.map IndexCondition.item) stack := by
      intro op
      match stack with
      | right :: left :: stack =>
        simp only [hashSetOperations, exec, bind, Except.bind]
        cases op.apply left right with
        | error e => rfl
        | ok v => exact ih _
      | [] => rfl
      | [_] => rfl
    rw [map_cons, queryLoop]
    unfold IndexCondition.item
    cases htype : cond.type with
    | logicAnd => exact hop .and
    | logicOr => exact hop .or
    | setMinus => exact hop .minus
    | conditionExp =>
      simp only [exec, bind, Except.bind]
      cases hashCompareValue w table segList cond with
      | error e => rfl
      | ok v => exact ih _
    | unionHashExp => exact absurd htype hkinds.1

/-- A tree of set operations gives its rows. -/
theorem eval_rows (t : BinTree IndexCondition SetOp) (hin : ∀ c ∈ t.leaves, c.SomeIn)
    (hok : ∀ c ∈ t.leaves, ∃ list, hashCompareValue w table segList c = .ok list) :
    ∃ list, t.eval (hashCompareValue w table segList) SetOp.apply = .ok list ∧
      Pairs Denotes segList.reverse list (exprRows w table segList t) := by
  induction t with
  | leaf cond =>
    have hmem : cond ∈ (BinTree.leaf cond : BinTree IndexCondition SetOp).leaves :=
      mem_singleton_self cond
    obtain ⟨list, hlist⟩ := hok cond hmem
    refine ⟨list, hlist, ?_⟩
    have hresult := hashCompareValue_result w table segList cond
    rw [hlist] at hresult
    cases hresult with
    | rows hrows => exact hrows
    | noSegments hnone => exact absurd (hin cond hmem) hnone
  | node op l r ihl ihr =>
    simp only [BinTree.leaves, forall_mem_append] at hin hok
    obtain ⟨left, hleft, hl⟩ := ihl hin.1 hok.1
    obtain ⟨right, hright, hr⟩ := ihr hin.2 hok.2
    obtain ⟨list, hlist, hrows⟩ := op.apply_rows hl hr
    refine ⟨list, ?_, hrows⟩
    simp only [BinTree.eval, hleft, hright, hlist]

/-- Over no segments an expression stands for no sets. -/
theorem exprRows_noSegments {t : BinTree IndexCondition SetOp}
    (hok : ∀ c ∈ t.leaves, ∃ list, hashCompareValue w table [] c = .ok list) :
    exprRows w table [] t = [] := by
  induction t with
  | leaf cond =>
    obtain ⟨list, hlist⟩ := hok cond (mem_singleton_self cond)
    have hresult := hashCompareValue_result w table [] cond
    rw [hlist] at hresult
    cases hresult with
    | rows hrows =>
      rw [exprRows]
      generalize leafRows w table [] cond = sets at hrows ⊢
      cases hrows
      rfl
    | noSegments hnone =>
      obtain ⟨hcomparator, -⟩ : cond.comparator = .in ∧ cond.values = [] := by
        simpa [IndexCondition.SomeIn] using hnone
      simp [exprRows, leafRows, hcomparator]
  | node op l r ihl ihr =>
    simp only [BinTree.leaves, forall_mem_append] at hok
    rw [exprRows, ihl hok.1, ihr hok.2]
    rfl

/-- An `IN` without values leaves no segment to the whole expression. -/
theorem eval_empty (t : BinTree IndexCondition SetOp)
    (hok : ∀ c ∈ t.leaves, ∃ list, hashCompareValue w table segList c = .ok list)
    (hbad : ∃ c ∈ t.leaves, ¬c.SomeIn) :
    t.eval (hashCompareValue w table segList) SetOp.apply = .ok [] := by
  have hleft : ∀ (op : SetOp) (list : SegRowids S), op.apply [] list = .ok [] := by
    intro op list
    cases op <;> rfl
  have hright : ∀ (op : SetOp) (list : SegRowids S), op.apply list [] = .ok [] := by
    intro op list
    cases op <;> cases list <;> rfl
  induction t with
  | leaf cond =>
    obtain ⟨c, hc, hnone⟩ := hbad
    obtain rfl := mem_singleton.mp hc
    obtain ⟨hcomparator, hvalues⟩ : c.comparator = .in ∧ c.values = [] := by
      simpa [IndexCondition.SomeIn] using hnone
    simp only [BinTree.eval, hashCompareValue, hcomparator, hvalues]
  | node op l r ihl ihr =>
    simp only [BinTree.leaves, forall_mem_append] at hok
    -- a side without such an `IN` has a result too
    have hside : ∀ s : BinTree IndexCondition SetOp,
        (∀ c ∈ s.leaves, ∃ list, hashCompareValue w table segList c = .ok list) →
        ((∃ c ∈ s.leaves, ¬c.SomeIn) →
          s.eval (hashCompareValue w table segList) SetOp.apply = .ok []) →
        ∃ list, s.eval (hashCompareValue w table segList) SetOp.apply = .ok list := by
      intro s hs hempty
      by_cases hin : ∀ c ∈ s.leaves, c.SomeIn
      · obtain ⟨list, hlist, -⟩ := eval_rows w table segList s hin hs
        exact ⟨list, hlist⟩
      · exact ⟨[], hempty (by simpa only [not_forall, exists_prop] using hin)⟩
    obtain ⟨left, hl⟩ := hside l hok.1 (ihl hok.1)
    obtain ⟨right, hr⟩ := hside r hok.2 (ihr hok.2)
    obtain ⟨c, hc, hnone⟩ := hbad
    rcases mem_append.mp hc with hc | hc
    · simp only [BinTree.eval, ihl hok.1 ⟨c, hc, hnone⟩, hr, hleft]
    · simp only [BinTree.eval, ihr hok.2 ⟨c, hc, hnone⟩, hl, hright]

/-- The loop gets through the array: no operator has too few operands, and no leaf query
fails. -/
def Through (conds : List IndexCondition) : Prop :=
  (∃ trees, parseItems (conds.map IndexCondition.item) [] = .ok trees) ∧
    ∀ c ∈ conds, c.type = .conditionExp → ∃ list, hashCompareValue w table segList c = .ok list

/-- The array does not leave several results, and no condition that the loop gets to reads a
value it lacks or hashes one that does not fit. -/
structure EndsNull (conds : List IndexCondition) : Prop where
  left : Through w table segList conds → ∀ trees,
    parseItems (conds.map IndexCondition.item) [] = .ok trees → trees.length ≤ 1
  noFault : ∀ pre c post, conds = pre ++ c :: post → Through w table segList pre →
    c.type = .conditionExp → hashCompareValue w table segList c ≠ .error .fault

variable {conds : List IndexCondition} (hkinds : ∀ c ∈ conds, c.type ≠ .unionHashExp)

theorem item_operand {a c : IndexCondition} (hc : c.type ≠ .unionHashExp) :
    c.item = .operand a ↔ c = a ∧ c.type = .conditionExp := by
  unfold IndexCondition.item
  cases htype : c.type <;> simp_all

/-- The results of the machine are lists of the first segments. -/
def FirstSegments (v : SegRowids S) : Prop :=
  ∃ n As, Pairs Denotes (segList.reverse.take n) v As

theorem leaf_firstSegments (a : IndexCondition) (v : SegRowids S)
    (hv : hashCompareValue w table segList a = .ok v) : FirstSegments segList v := by
  have hresult := hashCompareValue_result w table segList a
  rw [hv] at hresult
  cases hresult with
  | rows hrows => exact ⟨segList.reverse.length, _, by rw [take_length]; exact hrows⟩
  | noSegments _ => exact ⟨0, [], .nil⟩

omit [Sub S] [LT S] [DecidableLT S] in
theorem op_firstSegments (op : SetOp) (x y : SegRowids S) (hx : FirstSegments segList x)
    (hy : FirstSegments segList y) : ∃ v, op.apply x y = .ok v ∧ FirstSegments segList v := by
  obtain ⟨m, As, hx⟩ := hx
  obtain ⟨n, Bs, hy⟩ := hy
  obtain ⟨list, hlist, hrows⟩ := op.apply_rows_take _ hx hy
  exact ⟨list, hlist, _, _, hrows⟩

include hkinds in
theorem through_iff : Through w table segList conds ↔
    ∃ stack, exec (hashCompareValue w table segList) SetOp.apply .null
      (conds.map IndexCondition.item) [] = .ok stack := by
  rw [exec_ok_iff (leaf_firstSegments w table segList) (op_firstSegments segList) []
    (forall_mem_nil _) rfl, Through]
  refine and_congr_right fun _ => ⟨fun h a ha => ?_, fun h c hc htype => ?_⟩
  · obtain ⟨c, hc, heq⟩ := mem_map.mp ha
    obtain ⟨rfl, htype⟩ := (item_operand (hkinds c hc)).mp heq
    exact h c hc htype
  · exact h c (mem_map.mpr ⟨c, hc, (item_operand (hkinds c hc)).mpr ⟨rfl, htype⟩⟩)

include hkinds in
/-- When a query faults. -/
theorem fault_iff : exec (hashCompareValue w table segList) SetOp.apply .null
      (conds.map IndexCondition.item) [] = .error .fault ↔
    ∃ pre c post, conds = pre ++ c :: post ∧ Through w table segList pre ∧
      c.type = .conditionExp ∧ hashCompareValue w table segList c = .error .fault := by
  rw [exec_error_iff (leaf_firstSegments w table segList) (op_firstSegments segList) (by simp)
    (forall_mem_nil _)]
  constructor
  · rintro ⟨pre, a, post, stack, heq, hpre, ha⟩
    obtain ⟨front, back, rfl, rfl, hback⟩ := map_eq_append_iff.mp heq
    obtain ⟨c, rest, rfl, hc, -⟩ := map_eq_cons_iff.mp hback
    obtain ⟨rfl, htype⟩ := (item_operand (hkinds c (by simp))).mp hc
    refine ⟨front, c, rest, rfl, ?_, htype, ha⟩
    exact (through_iff w table segList fun d hd => hkinds d (by simp [hd])).mpr ⟨stack, hpre⟩
  · rintro ⟨pre, c, post, rfl, hthrough, htype, hfault⟩
    obtain ⟨stack, hpre⟩ :=
      (through_iff w table segList fun d hd => hkinds d (by simp [hd])).mp hthrough
    refine ⟨pre.map IndexCondition.item, c, post.map IndexCondition.item, stack, ?_, hpre, hfault⟩
    rw [map_append, map_cons, (item_operand (hkinds c (by simp))).mpr ⟨rfl, htype⟩]

end Expressions

/-- **WHEN INDEX CONDITIONS ARE SET EXPRESSIONS**, for every array of expression, AND,
OR and set-minus items.  If it spells an expression whose leaf queries succeed, the result
has, for every segment of the list, exactly the rowids of the expression's set in strictly
descending order, if and only if every `IN` has a value or there are no segments.  If it
spells no expression, the result is `NULL` if and only if the loop does not get through it
with several results, nor to a condition that reads a value it lacks or hashes one that does
not fit `to_hash`. -/
theorem index_conditions_are_sets {S : Type} [Zero S] [Add S] [Sub S] [LT S] [DecidableLT S]
    (w : Weights S) (table : QueryTable S) (segList : List Nat) (conds : List IndexCondition)
    (hkinds : ∀ c ∈ conds, c.type ≠ .unionHashExp) :
    (∀ t, Spells conds t →
      (∀ c ∈ t.leaves, ∃ list, hashCompareValue w table segList c = .ok list) →
      ((∃ list, queryByHashConditions w table segList conds = .ok list ∧
          Pairs Denotes segList.reverse list (exprRows w table segList t)) ↔
        segList = [] ∨ ∀ c ∈ t.leaves, c.SomeIn)) ∧
    ((∀ t, ¬ Spells conds t) →
      (queryByHashConditions w table segList conds = .error .null ↔
        EndsNull w table segList conds)) := by
  unfold queryByHashConditions
  rw [queryLoop_eq_exec w table segList conds hkinds]
  constructor
  · intro t ht hok
    have hexec : exec (hashCompareValue w table segList) SetOp.apply .null (t.items ++ []) [] = _ :=
      exec_items t [] []
    rw [append_nil] at hexec
    rw [show conds.map IndexCondition.item = t.items from ht, hexec]
    by_cases hin : ∀ c ∈ t.leaves, c.SomeIn
    · obtain ⟨list, heval, hrows⟩ := eval_rows w table segList t hin hok
      rw [heval]
      exact iff_of_true ⟨list, rfl, hrows⟩ (.inr hin)
    · have hbad : ∃ c ∈ t.leaves, ¬c.SomeIn := by
        simpa only [not_forall, exists_prop] using hin
      rw [eval_empty w table segList t hok hbad]
      constructor
      · rintro ⟨list, hlist, hrows⟩
        obtain rfl : [] = list := Except.ok.inj hlist
        refine .inl (reverse_eq_nil_iff.mp ?_)
        cases hsegs : segList.reverse with
        | nil => rfl
        | cons sid sids =>
          rw [hsegs] at hrows
          cases hrows
      · intro hsegs
        obtain rfl := hsegs.resolve_right hin
        refine ⟨[], rfl, ?_⟩
        rw [exprRows_noSegments w table hok]
        exact .nil
  · intro hnot
    have hfault := fault_iff w table segList hkinds
    have hnil : ([] : List (BinTree IndexCondition SetOp)).length =
      ([] : List (SegRowids S)).length := rfl
    cases hexec : exec (hashCompareValue w table segList) SetOp.apply .null
        (conds.map IndexCondition.item) [] with
    | error e =>
      have hthrough : ¬Through w table segList conds := by
        rw [through_iff w table segList hkinds, hexec]
        simp
      rw [hexec] at hfault
      cases e with
      | null =>
        refine iff_of_true rfl ⟨fun h => absurd h hthrough, fun pre c post heq hpre htype hc => ?_⟩
        cases hfault.mpr ⟨pre, c, post, heq, hpre, htype, hc⟩
      | fault =>
        obtain ⟨pre, c, post, heq, hpre, htype, hc⟩ := hfault.mp rfl
        exact iff_of_false (by simp [bind, Except.bind])
          fun h => h.noFault pre c post heq hpre htype hc
    | ok stack =>
      have hthrough := (through_iff w table segList hkinds).mpr ⟨stack, hexec⟩
      obtain ⟨trees, hparse, hlen⟩ := parseItems_of_exec [] hnil hexec
      rw [hexec] at hfault
      match stack with
      | [] =>
        refine iff_of_true rfl ⟨fun _ trees' hparse' => ?_, fun pre c post heq hpre htype hc => ?_⟩
        · cases hparse.symm.trans hparse'
          rw [hlen]
          exact Nat.zero_le _
        · cases hfault.mpr ⟨pre, c, post, heq, hpre, htype, hc⟩
      | [v] =>
        obtain ⟨t, ht⟩ := items_of_exec hexec
        exact absurd ht (hnot t)
      | v :: v' :: stack =>
        -- the expressions of the array are as many as the results it leaves
        refine iff_of_false (by simp [bind, Except.bind]) fun h => ?_
        have hle := h.left hthrough trees hparse
        rw [hlen] at hle
        simp at hle

/-- Three inserts into the index of field `a`. -/
def smallInserts : List (LowData × UInt32) :=
  [(tinyValue 5, 0), (tinyValue 6, 1), (tinyValue 5, 3)]

theorem smallHash_mapped : 12 * (4 + 1) < 2 ^ 32 := by decide

def smallHash : HashIndex :=
  (run insertStep (hashIndexInit 4 (Nat.succ_pos 3) smallHash_mapped) smallInserts).getD
    (hashIndexInit 4 (Nat.succ_pos 3) smallHash_mapped)

theorem smallHash_indexed : ∃ docs ins limit, Indexed smallHash docs ins ∧ Ascending limit ins := by
  have hasc : Ascending 4 smallInserts := by decide
  obtain ⟨h, hrun⟩ := Option.isSome_iff_exists.mp
    (show (run insertStep (hashIndexInit 4 (by decide) (by decide)) smallInserts).isSome = true
      by decide)
  obtain ⟨docs, hi, -⟩ := indexed_of_run 4 4 (by decide) (by decide) hasc hrun
  refine ⟨docs, smallInserts, 4, ?_, hasc⟩
  rw [smallHash, hrun]
  exact hi

def smallFields : SegmentFields where
  hash name := if name = [97] then some smallHash else none
  fulltext _ := none
  hashed := by
    intro name h hname
    split at hname
    · cases hname
      exact smallHash_indexed
    · cases hname
  worded := by
    intro name T hname
    cases hname

def smallTable : QueryTable Nat where
  deleted := false
  checkIndex _ _ := true
  indexes := segmentIndexes (fun _ => smallFields) fun _ _ => some 0
  recordNum _ := 3
  deleteNum _ := 0

def noWeights : Weights Nat := ⟨fun _ _ => 0, id⟩

/-- `a = b`. -/
def eqCondition (b : UInt8) : IndexCondition := ⟨.conditionExp, .eq, [tinyValue b]⟩

/-- `a IN (bs)`. -/
def inCondition (bs : List UInt8) : IndexCondition := ⟨.conditionExp, .in, bs.map tinyValue⟩

def opCondition (type : ConditionType) : IndexCondition := ⟨type, .eq, []⟩

/-- `a > 5`, which no index answers. -/
def gtCondition (b : UInt8) : IndexCondition := ⟨.conditionExp, .gt, [tinyValue b]⟩

theorem index_conditions_are_sets_small_table :
    (∃ list, queryByHashConditions noWeights smallTable [0, 1]
        [inCondition [5, 6], eqCondition 5, opCondition .setMinus] = .ok list ∧
      Pairs Denotes [1, 0] list (exprRows noWeights smallTable [0, 1]
        (.node .minus (.leaf (inCondition [5, 6])) (.leaf (eqCondition 5))))) ∧
    queryByHashConditions noWeights smallTable [0, 1] [gtCondition 5, eqCondition 5] =
      .error .null := by
  constructor
  · refine ((index_conditions_are_sets noWeights smallTable [0, 1]
      [inCondition [5, 6], eqCondition 5, opCondition .setMinus] (by decide)).1
      (.node .minus (.leaf (inCondition [5, 6])) (.leaf (eqCondition 5))) rfl ?_).mpr ?_
    · intro c hc
      simp only [BinTree.leaves, mem_append, mem_singleton] at hc
      rcases hc with rfl | rfl
      · exact ⟨_, rfl⟩
      · exact ⟨_, rfl⟩
    · refine .inr fun c hc => ?_
      simp only [BinTree.leaves, mem_append, mem_singleton] at hc
      rcases hc with rfl | rfl
      · exact fun _ => cons_ne_nil _ _
      · exact fun _ => cons_ne_nil _ _
  · refine ((index_conditions_are_sets noWeights smallTable [0, 1]
      [gtCondition 5, eqCondition 5] (by decide)).2 ?_).mpr ⟨?_, ?_⟩
    · intro t ht
      have hparse := parseItems_items t
      rw [← show _ = t.items from ht] at hparse
      cases hparse
    · rintro ⟨-, hok⟩
      obtain ⟨list, hlist⟩ := hok (gtCondition 5) mem_cons_self rfl
      cases hlist
    · intro pre c post heq _ _
      have hc : c ∈ [gtCondition 5, eqCondition 5] := by rw [heq]; simp
      simp only [mem_cons, not_mem_nil, or_false] at hc
      rcases hc with rfl | rfl <;> rintro ⟨⟩

/-- `a IN () OR a = 5` loses the rows of `a = 5`, because the list of `IN` without
values has no segments; and of two expressions without an operator the second one
is the result. -/
theorem empty_in_loses_segments :
    (∃ l, hashCompareValue noWeights smallTable [0] (eqCondition 5) = .ok [(0, some l)] ∧
      l.rowidNum = 2) ∧
    queryByHashConditions noWeights smallTable [0]
      [inCondition [], eqCondition 5, opCondition .logicOr] = .ok [] ∧
    (∀ t, ¬ Spells [eqCondition 6, eqCondition 5] t) ∧
    ∃ l, queryByHashConditions noWeights smallTable [0] [eqCondition 6, eqCondition 5] =
      .ok [(0, some l)] := by
  refine ⟨⟨_, rfl, rfl⟩, rfl, fun t ht => ?_, _, rfl⟩
  have hparse := parseItems_items t
  rw [← show _ = t.items from ht] at hparse
  cases hparse

end Mile.DocDb
