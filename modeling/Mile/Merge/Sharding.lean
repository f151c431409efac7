/-
  Mile.Merge.Sharding
  ───────────────────
  **WHERE A STATEMENT GOES** (`server/merge/ShardingStrategy.java`).

  A new row goes to the nodes that the rules of all its sharding columns allow, a query to those
  its conditions allow: AND is the intersection, OR the union.
-/
import Mile.Merge.Query
import Mile.Merge.ShardingRule

namespace Mile.Merge

open Common List

/-! ## §1. The strategy. -/

/-- `ShardingStrategy`. -/
structure ShardingStrategy where
  shard : DefaultShardConfig
  nodeIDs : Nodes

namespace ShardingStrategy

variable (strategy : ShardingStrategy) (digit : UInt16 → Option Nat)

/-- `doSharding`. -/
def doSharding (tableName : String) (field : FieldDesc) (comparetor : CompareType)
    (paramList : List Value) : Except Fault Nodes :=
  if field.isComputeField then .ok strategy.nodeIDs
  else if !strategy.shard.isShardingColumn tableName field.fieldName then .ok strategy.nodeIDs
  else strategy.shard.expSharding digit tableName field.fieldName comparetor paramList

/-- `expressionSharding` of an expression that is not `null`. -/
def sharding (tableName : String) : Expression → Except Fault Nodes
  | .operator .logicAnd left right => do
    return (← sharding tableName left) ∩ (← sharding tableName right)
  | .operator .logicOr left right => do
    return (← sharding tableName left) ∪ (← sharding tableName right)
  | .operator .other _ _ => .error .illegalSql
  | .column field comparetor values =>
    strategy.doSharding digit tableName field comparetor values
  | .other => .error .illegalSql

/-- `expressionSharding`. -/
def expressionSharding (tableName : String) : Option Expression → Except Fault Nodes
  | none => .ok strategy.nodeIDs
  | some expression => strategy.sharding digit tableName expression

/-- The loop of `insertSharding` over the columns and their values. -/
def insertLoop (tableName : String) :
    List FieldDesc → List Value → Nodes → Except Fault Nodes
  | [], _, nodeIds => .ok nodeIds
  | field :: fields, values, nodeIds =>
    if strategy.shard.isShardingColumn tableName field.fieldName then
      match values with
      | [] => .error .indexOutOfBounds
      | value :: values => do
        let resultSet ← strategy.shard.equalSharding digit tableName field.fieldName value
        insertLoop tableName fields values (nodeIds ∩ resultSet)
    else insertLoop tableName fields values.tail nodeIds

/-- `insertSharding`. -/
def insertSharding (stmt : InsertStatement) : Except Fault Nodes :=
  strategy.insertLoop digit stmt.tableName stmt.documentValue stmt.valueList strategy.nodeIDs

/-- What the statements with conditions have in common: the nodes both conditions
allow. -/
def whereSharding (stmt : Statement) : Except Fault Nodes := do
  return (← strategy.expressionSharding digit stmt.tableName stmt.hashWhere) ∩
    (← strategy.expressionSharding digit stmt.tableName stmt.filterWhere)

/-- `querySharding`. -/
def querySharding (stmt : Statement) : Except Fault Nodes := strategy.whereSharding digit stmt

/-- `updateSharding`. -/
def updateSharding (stmt : Statement) : Except Fault Nodes := strategy.whereSharding digit stmt

/-- `deleteSharding`. -/
def deleteSharding (stmt : Statement) : Except Fault Nodes := strategy.whereSharding digit stmt

/-- `exportSharding`. -/
def exportSharding (stmt : Statement) : Except Fault Nodes := strategy.whereSharding digit stmt

end ShardingStrategy

/-! ## §2. Rows and conditions. -/

def InsertStatement.row (stmt : InsertStatement) : List (FieldDesc × Value) :=
  stmt.documentValue.zip stmt.valueList

/-- The row satisfies the condition.  What a function of a column gives is left
open: any row may satisfy a condition on it. -/
def Expression.Satisfied (row : List (FieldDesc × Value)) : Expression → Prop
  | .operator .logicAnd left right => left.Satisfied row ∧ right.Satisfied row
  | .operator .logicOr left right => left.Satisfied row ∨ right.Satisfied row
  | .operator .other _ _ => False
  | .column field comparetor values =>
    field.isComputeField = true ∨
      ∃ entry ∈ row, entry.1.fieldName = field.fieldName ∧
        CondHolds entry.2 comparetor values
  | .other => False

/-- A tree of AND and OR over comparisons with values of the class of the column. -/
def Expression.Typed (classOf : String → JavaClass) : Expression → Prop
  | .operator op left right => op ≠ .other ∧ left.Typed classOf ∧ right.Typed classOf
  | .column field comparetor values =>
    field.isComputeField = false → TypedValues (classOf field.fieldName) comparetor values
  | .other => False

/-- No rule throws on a comparison of the condition. -/
def Expression.Answered (digit : UInt16 → Option Nat) (shard : DefaultShardConfig)
    (tableName : String) : Expression → Prop
  | .operator _ left right =>
    left.Answered digit shard tableName ∧ right.Answered digit shard tableName
  | .column field comparetor values =>
    field.isComputeField = false →
      ∀ rule ∈ shard.columnRules tableName field.fieldName, rule.Reduces digit comparetor values
  | .other => True

/-- For every comparison by which the row satisfies the condition, some rule that placed the
row on the node has the comparator in its `switch`. -/
def Expression.Seen (digit : UInt16 → Option Nat) (shard : DefaultShardConfig)
    (tableName : String) (row : List (FieldDesc × Value)) (node : Int) : Expression → Prop
  | .operator .logicOr left right =>
    left.Satisfied row ∧ left.Seen digit shard tableName row node ∨
      right.Satisfied row ∧ right.Seen digit shard tableName row node
  | .operator _ left right =>
    left.Seen digit shard tableName row node ∧ right.Seen digit shard tableName row node
  | .column field comparetor values =>
    shard.isShardingColumn tableName field.fieldName = true → field.isComputeField = false →
      ∀ entry ∈ row, entry.1.fieldName = field.fieldName → CondHolds entry.2 comparetor values →
        ∃ rule ∈ shard.columnRules tableName field.fieldName, rule.Switches comparetor ∧
          ∃ nodes, rule.equalSharding digit entry.2 = .ok nodes ∧ node ∈ nodes
  | .other => True

/-- All rules of the columns of the condition have the comparators. -/
def Expression.Switched (shard : DefaultShardConfig) (tableName : String) : Expression → Prop
  | .operator _ left right => left.Switched shard tableName ∧ right.Switched shard tableName
  | .column field comparetor _ =>
    ∀ rule ∈ shard.columnRules tableName field.fieldName, rule.Switches comparetor
  | .other => True

/-- The rules of the columns of a table have values of the classes of the columns. -/
def DefaultShardConfig.Typed (shard : DefaultShardConfig) (tableName : String)
    (classOf : String → JavaClass) : Prop :=
  ∀ columnName, ∀ rule ∈ shard.columnRules tableName columnName, rule.Typed (classOf columnName)

def Statement.conditions (stmt : Statement) : List Expression :=
  stmt.hashWhere.toList ++ stmt.filterWhere.toList

/-! ## §3. The nodes of a row. -/

/-- A node that a row may be sent to: every sharding column of the row allows it. -/
structure Sent (digit : UInt16 → Option Nat) (strategy : ShardingStrategy) (tableName : String)
    (row : List (FieldDesc × Value)) (node : Int) : Prop where
  mem : node ∈ strategy.nodeIDs
  allowed : ∀ entry ∈ row, strategy.shard.isShardingColumn tableName entry.1.fieldName = true →
    ∃ nodes, strategy.shard.equalSharding digit tableName entry.1.fieldName entry.2 = .ok nodes ∧
      node ∈ nodes

section Run

variable {digit : UInt16 → Option Nat} {strategy : ShardingStrategy} {tableName : String}
  {classOf : String → JavaClass} {node : Int} {nodes : Nodes}

/-- Where a row is sent. -/
theorem mem_insertLoop {fields : List FieldDesc} {values : List Value} {nodeIds : Nodes}
    (h : strategy.insertLoop digit tableName fields values nodeIds = .ok nodes)
    (hnode : node ∈ nodes) :
    node ∈ nodeIds ∧ ∀ entry ∈ fields.zip values,
      strategy.shard.isShardingColumn tableName entry.1.fieldName = true →
      ∃ ns, strategy.shard.equalSharding digit tableName entry.1.fieldName entry.2 = .ok ns ∧
        node ∈ ns := by
  induction fields generalizing values nodeIds with
  | nil =>
    cases h
    exact ⟨hnode, by simp⟩
  | cons field fields ih =>
    unfold ShardingStrategy.insertLoop at h
    split_ifs at h with hcolumn
    · cases values with
      | nil => cases h
      | cons value values =>
        cases hresult : strategy.shard.equalSharding digit tableName field.fieldName value with
        | error e =>
          simp only [hresult, bind, Except.bind] at h
          cases h
        | ok resultSet =>
          simp only [hresult, bind, Except.bind] at h
          obtain ⟨hin, htail⟩ := ih h
          obtain ⟨hids, hset⟩ := Finset.mem_inter.mp hin
          refine ⟨hids, forall_mem_cons.mpr ⟨fun _ => ⟨resultSet, hresult, hset⟩, htail⟩⟩
    · obtain ⟨hin, htail⟩ := ih h
      refine ⟨hin, ?_⟩
      cases values with
      | nil => simp
      | cons value values =>
        exact forall_mem_cons.mpr ⟨fun hc => absurd hc hcolumn, htail⟩

/-- **`insertSharding` gives nodes that every sharding column of the row allows.** -/
theorem sent_of_insertSharding {stmt : InsertStatement}
    (h : strategy.insertSharding digit stmt = .ok nodes) (hnode : node ∈ nodes) :
    Sent digit strategy stmt.tableName stmt.row node := by
  obtain ⟨hmem, hallowed⟩ := mem_insertLoop h hnode
  exact ⟨hmem, hallowed⟩

/-- A row is seen by a condition if all rules have the comparators: one of them placed it. -/
theorem Expression.Switched.seen {e : Expression} {row : List (FieldDesc × Value)}
    (hsent : Sent digit strategy tableName row node) (h : e.Switched strategy.shard tableName)
    (hsatisfied : e.Satisfied row) : e.Seen digit strategy.shard tableName row node := by
  induction e with
  | operator op left right ihleft ihright =>
    cases op with
    | logicAnd => exact ⟨ihleft h.1 hsatisfied.1, ihright h.2 hsatisfied.2⟩
    | logicOr =>
      exact hsatisfied.imp (fun hleft => ⟨hleft, ihleft h.1 hleft⟩)
        fun hright => ⟨hright, ihright h.2 hright⟩
    | other => exact hsatisfied.elim
  | column field comparetor values =>
    intro hcolumn _ entry hentry hname _
    obtain ⟨nodes, hnodes, hnode⟩ := hsent.allowed entry hentry (hname ▸ hcolumn)
    rw [hname] at hnodes
    obtain ⟨rule, hmem, ruleNodes, hrule, hin⟩ :=
      (mem_union (u := unionRules _) rfl (fun _ _ => rfl) hnodes).mp hnode
    exact ⟨rule, hmem, h rule hmem, ruleNodes, hrule, hin⟩
  | other => trivial

section

variable (hrules : strategy.shard.Typed tableName classOf)

include hrules

/-- When no rule throws. -/
theorem doSharding_ok_iff {field : FieldDesc} {comparetor : CompareType} {values : List Value}
    (htyped : (Expression.column field comparetor values).Typed classOf) :
    (∃ result, strategy.doSharding digit tableName field comparetor values = .ok result) ↔
      (Expression.column field comparetor values).Answered digit strategy.shard tableName := by
  unfold ShardingStrategy.doSharding Expression.Answered
  split_ifs with hcompute hcolumn
  · exact iff_of_true ⟨_, rfl⟩ fun hplain => absurd hcompute (by simp [hplain])
  · refine iff_of_true ⟨_, rfl⟩ fun _ rule hmem => ?_
    have hnil : strategy.shard.columnRules tableName field.fieldName = [] := by
      simpa [DefaultShardConfig.isShardingColumn] using hcolumn
    rw [hnil] at hmem
    exact absurd hmem not_mem_nil
  · have hplain : field.isComputeField = false := by simpa using hcompute
    rw [DefaultShardConfig.expSharding_ok_iff digit (htyped hplain) (hrules field.fieldName)]
    exact ⟨fun h _ => h, fun h => h hplain⟩

/-- A condition that the row satisfies reaches its node. -/
theorem mem_doSharding {field : FieldDesc} {comparetor : CompareType} {values : List Value}
    {row : List (FieldDesc × Value)} {result : Nodes}
    (htyped : (Expression.column field comparetor values).Typed classOf)
    (hresult : strategy.doSharding digit tableName field comparetor values = .ok result)
    (hnode : node ∈ strategy.nodeIDs)
    (hsatisfied : (Expression.column field comparetor values).Satisfied row)
    (hseen : (Expression.column field comparetor values).Seen digit strategy.shard tableName row
      node) : node ∈ result := by
  unfold ShardingStrategy.doSharding at hresult
  split_ifs at hresult with hcompute hcolumn
  · cases hresult
    exact hnode
  · cases hresult
    exact hnode
  · have hplain : field.isComputeField = false := by simpa using hcompute
    obtain ⟨entry, hentry, hname, hcond⟩ := hsatisfied.resolve_left hcompute
    obtain ⟨rule, hmem, hswitch, nodes, hnodes, hin⟩ :=
      hseen (by simpa using hcolumn) hplain entry hentry hname hcond
    exact DefaultShardConfig.mem_expSharding digit (htyped hplain) (hrules field.fieldName) hresult
      hmem hswitch hnodes hin hcond

/-- **A condition has nodes exactly if no rule throws.** -/
theorem Expression.sharding_ok_iff {e : Expression} (htyped : e.Typed classOf) :
    (∃ result, strategy.sharding digit tableName e = .ok result) ↔
      e.Answered digit strategy.shard tableName := by
  induction e with
  | operator op left right ihleft ihright =>
    obtain ⟨hop, htypedLeft, htypedRight⟩ := htyped
    rw [Expression.Answered, ← ihleft htypedLeft, ← ihright htypedRight]
    cases op with
    | logicAnd | logicOr =>
      rw [ShardingStrategy.sharding]
      cases strategy.sharding digit tableName left <;>
        cases strategy.sharding digit tableName right <;>
        simp [bind, Except.bind, pure, Except.pure]
    | other => exact absurd rfl hop
  | column field comparetor values => exact doSharding_ok_iff hrules htyped
  | other => exact htyped.elim

/-- **The nodes of a condition have that of a row which it sees and which satisfies it.** -/
theorem Expression.mem_sharding {e : Expression} {row : List (FieldDesc × Value)} {result : Nodes}
    (htyped : e.Typed classOf) (hresult : strategy.sharding digit tableName e = .ok result)
    (hnode : node ∈ strategy.nodeIDs) (hsatisfied : e.Satisfied row)
    (hseen : e.Seen digit strategy.shard tableName row node) : node ∈ result := by
  induction e generalizing result with
  | operator op left right ihleft ihright =>
    obtain ⟨hop, htypedLeft, htypedRight⟩ := htyped
    -- both sides have nodes
    obtain ⟨l, r, hl, hr, hboth⟩ : ∃ l r, strategy.sharding digit tableName left = .ok l ∧
        strategy.sharding digit tableName right = .ok r ∧
        result = if op = .logicAnd then l ∩ r else l ∪ r := by
      cases op with
      | logicAnd | logicOr =>
        rw [ShardingStrategy.sharding] at hresult
        cases hl : strategy.sharding digit tableName left with
        | error e =>
          rw [hl] at hresult
          cases hresult
        | ok l =>
          cases hr : strategy.sharding digit tableName right with
          | error e =>
            rw [hl, hr] at hresult
            cases hresult
          | ok r =>
            rw [hl, hr] at hresult
            exact ⟨l, r, rfl, rfl, (Except.ok.inj hresult).symm⟩
      | other => exact absurd rfl hop
    subst hboth
    cases op with
    | logicAnd =>
      exact Finset.mem_inter.mpr ⟨ihleft htypedLeft hl hsatisfied.1 hseen.1,
        ihright htypedRight hr hsatisfied.2 hseen.2⟩
    | logicOr =>
      rcases hseen with ⟨hsat, hleft⟩ | ⟨hsat, hright⟩
      · exact Finset.mem_union_left _ (ihleft htypedLeft hl hsat hleft)
      · exact Finset.mem_union_right _ (ihright htypedRight hr hsat hright)
    | other => exact absurd rfl hop
  | column field comparetor values =>
    exact mem_doSharding hrules htyped hresult hnode hsatisfied hseen
  | other => exact htyped.elim

theorem expressionSharding_ok_iff {clause : Option Expression}
    (htyped : ∀ e ∈ clause, e.Typed classOf) :
    (∃ result, strategy.expressionSharding digit tableName clause = .ok result) ↔
      ∀ e ∈ clause, e.Answered digit strategy.shard tableName := by
  cases clause with
  | none => exact iff_of_true ⟨_, rfl⟩ (by simp)
  | some e =>
    refine (Expression.sharding_ok_iff hrules (htyped e rfl)).trans
      ⟨fun h e' he => ?_, fun h => h e rfl⟩
    cases he
    exact h

theorem mem_expressionSharding {clause : Option Expression} {row : List (FieldDesc × Value)}
    {result : Nodes} (htyped : ∀ e ∈ clause, e.Typed classOf)
    (hresult : strategy.expressionSharding digit tableName clause = .ok result)
    (hnode : node ∈ strategy.nodeIDs) (hsatisfied : ∀ e ∈ clause, e.Satisfied row)
    (hseen : ∀ e ∈ clause, e.Seen digit strategy.shard tableName row node) : node ∈ result := by
  cases clause with
  | none =>
    cases hresult
    exact hnode
  | some e =>
    exact Expression.mem_sharding hrules (htyped e rfl) hresult hnode (hsatisfied e rfl)
      (hseen e rfl)

end

/-- **A statement has nodes exactly if no rule throws on its conditions**, and then also the
node of a row that they see. -/
theorem whereSharding_ok_iff {stmt : Statement}
    (hrules : strategy.shard.Typed stmt.tableName classOf)
    (htyped : ∀ e ∈ stmt.conditions, e.Typed classOf) :
    ((∃ result, strategy.whereSharding digit stmt = .ok result) ↔
      ∀ e ∈ stmt.conditions, e.Answered digit strategy.shard stmt.tableName) ∧
    ∀ row result, strategy.whereSharding digit stmt = .ok result → node ∈ strategy.nodeIDs →
      (∀ e ∈ stmt.conditions, e.Satisfied row) →
      (∀ e ∈ stmt.conditions, e.Seen digit strategy.shard stmt.tableName row node) →
      node ∈ result := by
  simp only [Statement.conditions, mem_append, Option.mem_toList, or_imp, forall_and]
    at htyped ⊢
  have hhash := @expressionSharding_ok_iff digit _ _ _ hrules _ htyped.1
  have hfilter := @expressionSharding_ok_iff digit _ _ _ hrules _ htyped.2
  simp only [Option.mem_def] at hhash hfilter
  rw [← hhash, ← hfilter, ShardingStrategy.whereSharding]
  cases hl : strategy.expressionSharding digit stmt.tableName stmt.hashWhere with
  | error e => simp [bind, Except.bind]
  | ok l =>
    cases hr : strategy.expressionSharding digit stmt.tableName stmt.filterWhere with
    | error e => simp [bind, Except.bind]
    | ok r =>
      refine ⟨iff_of_true ⟨_, rfl⟩ ⟨⟨l, rfl⟩, r, rfl⟩, ?_⟩
      rintro row result ⟨⟩ hnode ⟨hsatHash, hsatFilter⟩ ⟨hseenHash, hseenFilter⟩
      exact Finset.mem_inter.mpr
        ⟨mem_expressionSharding hrules htyped.1 hl hnode hsatHash hseenHash,
          mem_expressionSharding hrules htyped.2 hr hnode hsatFilter hseenFilter⟩

/-- **Statements reach every node that can hold a matching row.**  A row was sent to a node, and
the conditions of a statement on the same table are satisfied by the row.  Then the query, the
update and the delete go to the node if no rule throws on the comparisons and the conditions see
the row; they see it if all rules have their comparators.  They go nowhere if a rule throws. -/
theorem node_reached (digit : UInt16 → Option Nat) (strategy : ShardingStrategy)
    (classOf : String → JavaClass) (insert : InsertStatement) (stmt : Statement)
    (htable : stmt.tableName = insert.tableName)
    (hrules : strategy.shard.Typed stmt.tableName classOf)
    (htyped : ∀ e ∈ stmt.conditions, e.Typed classOf)
    (hinsert : strategy.insertSharding digit insert = .ok nodes) (hnode : node ∈ nodes)
    (hsatisfied : ∀ e ∈ stmt.conditions, e.Satisfied insert.row) :
    ((∀ e ∈ stmt.conditions, e.Answered digit strategy.shard stmt.tableName) →
      (∀ e ∈ stmt.conditions, e.Seen digit strategy.shard stmt.tableName insert.row node) →
      (∃ result, strategy.querySharding digit stmt = .ok result ∧ node ∈ result) ∧
      (∃ result, strategy.updateSharding digit stmt = .ok result ∧ node ∈ result) ∧
      (∃ result, strategy.deleteSharding digit stmt = .ok result ∧ node ∈ result)) ∧
    ((∃ result, strategy.querySharding digit stmt = .ok result) ∨
      (∃ result, strategy.updateSharding digit stmt = .ok result) ∨
      (∃ result, strategy.deleteSharding digit stmt = .ok result) →
      ∀ e ∈ stmt.conditions, e.Answered digit strategy.shard stmt.tableName) ∧
    ∀ e ∈ stmt.conditions, e.Switched strategy.shard stmt.tableName →
      e.Seen digit strategy.shard stmt.tableName insert.row node := by
  have hsent := sent_of_insertSharding hinsert hnode
  rw [← htable] at hsent
  obtain ⟨hiff, hmem⟩ := @whereSharding_ok_iff digit _ _ node _ hrules htyped
  refine ⟨fun hanswered hseen => ?_, ?_, fun e he hswitch => hswitch.seen hsent (hsatisfied e he)⟩
  · obtain ⟨result, hresult⟩ := hiff.mpr hanswered
    have hreached : ∃ result, strategy.whereSharding digit stmt = .ok result ∧ node ∈ result :=
      ⟨result, hresult, hmem insert.row result hresult hsent.mem hsatisfied hseen⟩
    exact ⟨hreached, hreached, hreached⟩
  · rintro (hresult | hresult | hresult) <;> exact hiff.mp hresult

end Run

/-- A table `t` whose column `id` is split at 10 between two nodes, and whose column
`uid` modulo two between two groups of nodes. -/
def splitStrategy : ShardingStrategy where
  shard := ⟨fun tableName => if tableName = "t" then
    some fun columnName =>
      if columnName = "id" then
        some [.single ⟨.ge, .long 10, {1}⟩,
          .between ⟨some .ge, .long 0, some .lt, .long 10, {2}⟩]
      else if columnName = "uid" then some [.mod ⟨2, by decide, [], [{1, 2}, {3}]⟩]
      else none
    else none⟩
  nodeIDs := {1, 2, 3}

/-- A row of `t`, with a column without rules. -/
def splitRow : InsertStatement where
  tableName := "t"
  documentValue := [{ fieldName := "id" }, { fieldName := "uid" }, { fieldName := "note" }]
  valueList := [.long 15, .integer 4, .null]

theorem splitStrategy_typed :
    splitStrategy.shard.Typed "t" fun name => if name = "id" then .long else .integer := by
  intro columnName rule hrule
  simp only [DefaultShardConfig.columnRules, splitStrategy, if_true] at hrule
  split_ifs at hrule with hid huid
  · simp only [Option.getD_some, mem_cons, not_mem_nil, or_false] at hrule
    rcases hrule with rfl | rfl
    · simp [ShardingRule.Typed, Value.comparable, hid]
    · simp [ShardingRule.Typed, Value.comparable, hid]
  · simp only [Option.getD_some, mem_cons, not_mem_nil, or_false] at hrule
    subst hrule
    trivial
  · simp at hrule

/-- `INDEXWHERE uid = 4 WHERE id <> 3 OR id BETWEEN [12, 20)`. -/
def splitQuery : Statement where
  tableName := "t"
  hashWhere := some (.column { fieldName := "uid" } .eq [.integer 4])
  filterWhere := some (.operator .logicOr (.column { fieldName := "id" } .ne [.long 3])
    (.column { fieldName := "id" } .betweenLeg [.long 12, .long 20]))

theorem node_reached_split :
    splitStrategy.insertSharding (fun _ => none) splitRow = .ok {1} ∧
    (∃ result, splitStrategy.querySharding (fun _ => none) splitQuery = .ok result ∧
      1 ∈ result) := by
  have hinsert : splitStrategy.insertSharding (fun _ => none) splitRow = .ok {1} := by
    decide +kernel
  have huid : splitStrategy.shard.columnRules "t" "uid" =
    [.mod ⟨2, by decide, [], [{1, 2}, {3}]⟩] := rfl
  have hid : splitStrategy.shard.columnRules "t" "id" =
    [.single ⟨.ge, .long 10, {1}⟩,
      .between ⟨some .ge, .long 0, some .lt, .long 10, {2}⟩] := rfl
  have huidHolds : CondHolds (.integer 4) .eq [.integer 4] :=
    ⟨.integer 4, rfl, by decide, 0, by decide, rfl⟩
  have hidHolds : CondHolds (.long 15) .betweenLeg [.long 12, .long 20] :=
    ⟨.long 12, .long 20, rfl, rfl, ⟨by decide, 1, by decide, by decide⟩,
      by decide, -1, by decide, by decide⟩
  have hidSatisfied : (Expression.column { fieldName := "id" } .betweenLeg
      [.long 12, .long 20]).Satisfied splitRow.row :=
    .inr ⟨({ fieldName := "id" }, .long 15), by decide, rfl, hidHolds⟩
  refine ⟨hinsert, ((node_reached (fun _ => none) splitStrategy
    (fun name => if name = "id" then .long else .integer) splitRow splitQuery rfl
    splitStrategy_typed ?_ hinsert (Finset.mem_singleton_self 1) ?_).1 ?_ ?_).1⟩
  · -- the values have the classes of the columns
    refine forall_mem_cons.mpr ⟨fun _ => ⟨by decide, by decide⟩, ?_⟩
    refine forall_mem_cons.mpr ⟨?_, by simp⟩
    exact ⟨by decide, fun _ => ⟨by decide, by decide⟩, fun _ => ⟨by decide, by decide⟩⟩
  · -- the row satisfies both conditions
    refine forall_mem_cons.mpr ⟨.inr ⟨({ fieldName := "uid" }, .integer 4), by decide, rfl,
      huidHolds⟩, forall_mem_cons.mpr ⟨.inr hidSatisfied, by simp⟩⟩
  · -- no rule throws
    refine forall_mem_cons.mpr ⟨fun _ rule hrule => ?_, forall_mem_cons.mpr ⟨⟨?_, ?_⟩, by simp⟩⟩
    · change rule ∈ splitStrategy.shard.columnRules "t" "uid" at hrule
      rw [huid, mem_singleton] at hrule
      subst hrule
      rintro w ⟨⟩
      exact ⟨{1, 2}, by decide +kernel⟩
    all_goals
      intro _ rule hrule
      change rule ∈ splitStrategy.shard.columnRules "t" "id" at hrule
      rw [hid] at hrule
      simp only [mem_cons, not_mem_nil, or_false] at hrule
      rcases hrule with rfl | rfl <;> trivial
  · -- the rules that placed the row have the comparators
    refine forall_mem_cons.mpr ⟨fun _ _ entry hentry hname _ => ?_,
      forall_mem_cons.mpr ⟨.inr ⟨hidSatisfied, fun _ _ entry hentry hname _ => ?_⟩, by simp⟩⟩
    · refine ⟨.mod ⟨2, by decide, [], [{1, 2}, {3}]⟩, huid ▸ mem_singleton_self _,
        trivial, {1, 2}, ?_, by decide⟩
      simp only [InsertStatement.row, splitRow, zip_cons_cons, zip_nil_left, mem_cons,
        not_mem_nil, or_false] at hentry
      rcases hentry with rfl | rfl | rfl
      · exact absurd hname (by decide)
      · decide +kernel
      · exact absurd hname (by decide)
    · refine ⟨.single ⟨.ge, .long 10, {1}⟩, hid ▸ mem_cons_self,
        ⟨by decide, by decide⟩, {1}, ?_, by decide⟩
      simp only [InsertStatement.row, splitRow, zip_cons_cons, zip_nil_left, mem_cons,
        not_mem_nil, or_false] at hentry
      rcases hentry with rfl | rfl | rfl
      · decide +kernel
      · exact absurd hname (by decide)
      · exact absurd hname (by decide)

/-- **`<>` finds nothing.**  The row was sent to node 1, and `WHERE id <> 3` is
satisfied by it; but the rules of `id` have no nodes for `<>`, and the query goes
nowhere. -/
theorem ne_reaches_no_node :
    let stmt : Statement :=
      { tableName := "t", filterWhere := some (.column { fieldName := "id" } .ne [.long 3]) }
    splitStrategy.shard.Typed "t" (fun name => if name = "id" then .long else .integer) ∧
    (∀ e ∈ stmt.conditions, e.Typed fun name => if name = "id" then .long else .integer) ∧
    splitStrategy.insertSharding (fun _ => none) splitRow = .ok {1} ∧
    (∀ e ∈ stmt.conditions, e.Satisfied splitRow.row) ∧
    splitStrategy.querySharding (fun _ => none) stmt = .ok ∅ := by
  refine ⟨splitStrategy_typed, ?_, by decide +kernel, ?_, by decide +kernel⟩
  · exact forall_mem_cons.mpr ⟨fun _ => ⟨by decide, by decide⟩, by simp⟩
  · refine forall_mem_cons.mpr
      ⟨.inr ⟨({ fieldName := "id" }, .long 15), by decide, rfl, ?_⟩, by simp⟩
    exact ⟨.long 3, rfl, by decide, 1, by decide, by decide⟩

end Mile.Merge
