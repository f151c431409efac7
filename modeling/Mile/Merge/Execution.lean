/-
  Mile.Merge.Execution
  ────────────────────
  **RUNNING A PLAN** (`plan/SqlAnalyzer.java`, `ExecutePlan.java`, `ParamBindStep.java`,
  `SelectStep.java`, `SetOperateStep.java`, `MessageProcessor.java`,
  `server/merge/RandomStrategy.java`, `common/SqlResultSet.java`).

  A plan runs the sub-selects of a query before the query, the left side of UNION or INTERSECT
  before the right one.  What a query finds out about its nodes is the `docState` of its result.
-/
import Mile.Merge.Plan
import Mile.Merge.ResultMessage
import Mile.Merge.Sharding
import Mile.Lib.Outcomes

namespace Mile.Merge

open Lib Common Protocol List

/-! ## §1. Expressions. -/

/-- The operators of `SetOperatorExpression`. -/
inductive SetOperator where
  | unionSet
  | intersection
  | other
  deriving Repr, DecidableEq

/-- A `QueryStatement` without its expressions. -/
structure QueryHead where
  tableName : String
  accessType : AccessType := .commonQuery
  selectFields : List FieldDesc
  groupByFields : List FieldDesc := []
  orderFields : List OrderDesc := []
  limit : Nat := 50
  offset : Nat := 0

mutual

/-- `Expression`, with the parameters of the statement but not yet the results of its
sub-selects (`ColumnSubSelectExp`). -/
inductive SelectExp where
  | operator (op : Operator) (left right : SelectExp)
  | column (field : FieldDesc) (comparetor : CompareType) (values : List Value)
  | subSelect (field : FieldDesc) (comparetor : CompareType) (query : QueryExp)
  | other

/-- `QueryStatement`; `within` has the expressions after WITHIN of its select fields. -/
inductive QueryExp where
  | mk (head : QueryHead) (within : List SelectExp)
      (hashWhere filterWhere having : Option SelectExp)

end

/-- `QueryStatementExpression`: a query, or a set operation of two of them. -/
inductive QueryStatementExpression where
  | query (query : QueryExp)
  | setOperator (operator : SetOperator) (left right : QueryStatementExpression)

def QueryHead.statement (head : QueryHead) (hashWhere filterWhere having : Option Expression) :
    QueryStatement where
  tableName := head.tableName
  hashWhere := hashWhere
  filterWhere := filterWhere
  accessType := head.accessType
  selectFields := head.selectFields
  groupByFields := head.groupByFields
  having := having
  orderFields := head.orderFields
  limit := head.limit
  offset := head.offset

/-! ## §2. Nodes. -/

/-- What comes back from a server: nothing in time, a result, or another message. -/
inductive Reply where
  | none
  | result (message : AccessRsMessage)
  | other

/-- `ServerRef`, and what it answers.  It is `connected` if its channel is not `null`. -/
structure ServerRef where
  serverId : Int32
  available : Bool
  online : Bool
  connected : Bool
  reply : Reply

/-- `Node`: the docservers that have the same rows. -/
structure ServerNode where
  masterDoc : Option ServerRef
  slaveDocs : List ServerRef

/-- `available` and `online`. -/
def ServerRef.usable (server : ServerRef) : Bool := server.available && server.online

/-- `isSelectAvailable`. -/
def ServerNode.isSelectAvailable (node : ServerNode) : Bool :=
  node.masterDoc.any ServerRef.usable || node.slaveDocs.any ServerRef.usable

/-- The nodes while a query is sent.  `node` is `getNodes().get(nodeId)`; `random` is the
draw of `Math.random()` for a node. -/
structure Network where
  node : Int → Option ServerNode
  random : Int → Nat

/-- What ends a plan without a result. -/
inductive ExecFault where
  | plan (fault : Fault)
  | read (fault : ReadFault)
  deriving Repr, DecidableEq

/-- A new `ServerRef` without a channel. -/
def unconnected (nodeId : Int) : ServerRef := ⟨.ofInt nodeId, false, false, false, .none⟩

/-- The body of the loop of `chooseQueryDocumentServer`. -/
def Network.chooseServer (network : Network) (nodeId : Int) : Except Fault (Option ServerRef) :=
  match network.node nodeId with
  | none => .error .nullPointer
  | some node =>
    match node.masterDoc with
    | none => .error .nullPointer
    | some master =>
      if node.isSelectAvailable then
        let nodeServers := (master :: node.slaveDocs).filter ServerRef.usable
        -- there is no draw from an empty list
        .ok (some (nodeServers[network.random nodeId % nodeServers.length]?.getD
          (unconnected nodeId)))
      else if master.online then .ok (some (unconnected nodeId))
      else .ok none

/-- `chooseQueryDocumentServer`: the servers, with the node each one is for. -/
def Network.chooseQueryDocumentServer (network : Network) :
    List Int → Except Fault (List (Int × ServerRef))
  | [] => .ok []
  | nodeId :: nodeIds => do
    let server ← network.chooseServer nodeId
    let servers ← network.chooseQueryDocumentServer nodeIds
    return (server.map fun s => (nodeId, s)).toList ++ servers

/-- An `AccessRsMessage` without values. -/
def failedMessage (nodeId id : Int32) : AccessRsMessage :=
  ⟨nodeId, 0, 0, .ofNat mtDmRs, id, 0, [], none⟩

/-- `sendMessage`, for one server.  Without a channel the message gets the server as its id,
not as its node. -/
def ServerRef.answer (server : ServerRef) : AccessRsMessage :=
  if server.connected then
    match server.reply with
    | .none => failedMessage server.serverId 0
    | .result message => { message with nodeId := server.serverId }
    | .other => failedMessage server.serverId 0
  else failedMessage 0 server.serverId

/-! ## §3. `SelectStep`. -/

/-- `DocDigestData`. -/
structure DocDigestData where
  nodeId : Int32
  rowCount : Int
  success : Bool
  deriving DecidableEq

/-- `SqlResultSet`. -/
structure SqlResultSet where
  docState : List DocDigestData
  fields : List FieldDesc
  data : ResultData

/-- `isSuccessful`. -/
def SqlResultSet.isSuccessful (result : SqlResultSet) : Bool :=
  !result.docState.isEmpty && result.docState.all DocDigestData.success

def Obj.plain : Obj → Option Value
  | .value v => some v
  | _ => none

/-- An object as the later steps see it; containers of containers have no use there. -/
def Obj.cell : Obj → Cell
  | .value v => .value v
  | .set elements => .set (elements.filterMap Obj.plain).toFinset
  | .list elements => .list (elements.filterMap Obj.plain)

def ReadRecord.record (r : ReadRecord) : Record := ⟨r.docid, r.data.map Obj.cell⟩

section Run

variable (malformed : Bytes → List UInt16)

/-- The body of the loop of `SelectStep.execute`: the entry of `docState` and the records. -/
def readMessage (fields : Nat) (message : AccessRsMessage) :
    Except ExecFault (DocDigestData × Option (List Record)) :=
  match message.values with
  | none => .ok (⟨message.nodeId, message.resultRows.toInt, false⟩, none)
  | some _ =>
    match parseResultMessage malformed message fields with
    | .ok (records, _) =>
      .ok (⟨message.nodeId, message.resultRows.toInt, true⟩,
        some (records.map ReadRecord.record))
    | .error fault => .error (.read fault)

def readMessages (fields : Nat) :
    List AccessRsMessage → Except ExecFault (List (DocDigestData × Option (List Record)))
  | [] => .ok []
  | message :: messages => do
    return (← readMessage malformed fields message) :: (← readMessages fields messages)

/-! ## §4. Running. -/

/-- A query that was run: the statement its select step was given, the nodes of
`querySharding`, and the servers that were chosen. -/
structure QueryRun where
  stmt : QueryStatement
  nodes : Nodes
  asked : List (Int × ServerRef)

def QueryRun.fields (run : QueryRun) : Nat := run.stmt.selectFields.length

theorem insertionSort_perm {l l' : List Int} (h : l.Perm l') :
    l.insertionSort (· ≤ ·) = l'.insertionSort (· ≤ ·) := by
  refine Perm.eq_of_pairwise ?_ (pairwise_insertionSort (· ≤ ·) l)
    (pairwise_insertionSort (· ≤ ·) l') ?_
  · intro a b _ _ hab hba
    exact le_antisymm hab hba
  · exact ((perm_insertionSort _ l).trans h).trans (perm_insertionSort _ l').symm

def nodeList (nodes : Nodes) : List Int :=
  Quot.lift (fun l : List Int => l.insertionSort (· ≤ ·)) (fun _ _ h => insertionSort_perm h)
    nodes.val

theorem mem_nodeList {nodes : Nodes} {nodeId : Int} : nodeId ∈ nodeList nodes ↔ nodeId ∈ nodes := by
  obtain ⟨nodes, hnodup⟩ := nodes
  induction nodes using Quotient.inductionOn with
  | h l => exact (perm_insertionSort (· ≤ ·) l).mem_iff

/-- A run of a part of a plan; the state has the queries that were run before. -/
abbrev Exec := StateT (List QueryRun) (Except ExecFault)

def planned {α : Type} (step : Except Fault α) : Exec α := fun log =>
  match step with
  | .ok a => .ok (a, log)
  | .error fault => .error (.plan fault)

variable (network : Nat → Network) (strategy : ShardingStrategy) (digit : UInt16 → Option Nat)
  (doubles : DoubleFuncs) (order : HashOrder)

/-- `queryMessage` and `SelectStep.execute`, for a rewritten statement.  The query that is run
as the `k`-th one meets the nodes of `network k`. -/
def runSelect (stmt : QueryStatement) : Exec (List DocDigestData × ResultData) := fun log =>
  match strategy.querySharding digit stmt.toStatement with
  | .error fault => .error (.plan fault)
  | .ok nodes =>
    if nodes = ∅ then .error (.plan .sqlExecute)
    else
      match (network log.length).chooseQueryDocumentServer (order.visit (nodeList nodes)) with
      | .error fault => .error (.plan fault)
      | .ok servers =>
        match readMessages malformed stmt.selectFields.length
            (servers.map fun entry => entry.2.answer) with
        | .error fault => .error fault
        | .ok messages =>
          .ok ((messages.map Prod.fst, selectStep order stmt (messages.map Prod.snd)),
            log ++ [⟨stmt, nodes, servers⟩])

def runStatement (stmt : QueryStatement) : Exec SqlResultSet := do
  let index ← planned (selectIndex stmt.selectFields stmt.rewrite.selectFields stmt.offset
    stmt.limit)
  let (docState, data) ← runSelect malformed network strategy digit order stmt.rewrite
  let data ← planned (stmt.groupData doubles order data)
  let data ← planned (stmt.havingData data)
  let data ← planned (stmt.orderData data)
  let records ← planned (outputStep index stmt.offset stmt.limit data)
  return ⟨docState, stmt.selectFields, .list records⟩

/-- `ColumnSubSelectExp.getBindParams`: the first column. -/
def getBindParams (result : SqlResultSet) : Except Fault (List Value) :=
  result.data.records.mapM fun record => do
    match ← getCell record.data 0 with
    | .value v => return v
    | _ => .error .classCast

mutual

def bindExp : SelectExp → Exec Expression
  | .operator op left right => do
    let left ← bindExp left
    let right ← bindExp right
    return .operator op left right
  | .column field comparetor values => return .column field comparetor values
  | .subSelect field comparetor query => do
    let result ← runQuery query
    let values ← planned (getBindParams result)
    return .column field comparetor values
  | .other => return .other

/-- An expression that may be `null`. -/
def bindOption : Option SelectExp → Exec (Option Expression)
  | none => return none
  | some exp => return some (← bindExp exp)

/-- The expressions after WITHIN; only the nodes look at what they are bound to. -/
def bindWithin : List SelectExp → Exec Unit
  | [] => return ()
  | exp :: exps => do
    let _ ← bindExp exp
    bindWithin exps

/-- `analyze(QueryStatement)`, run. -/
def runQuery : QueryExp → Exec SqlResultSet
  | .mk head within hashWhere filterWhere having => do
    bindWithin within
    let hashWhere ← bindOption hashWhere
    let filterWhere ← bindOption filterWhere
    let having ← bindOption having
    runStatement malformed network strategy digit doubles order
      (head.statement hashWhere filterWhere having)

end

def hasRecord (records : List Record) (record : Record) : Bool :=
  records.any fun r => r.data = record.data

/-- `SetOperateStep.execute`. -/
def setOperateStep (operator : SetOperator) (left right : SqlResultSet) :
    Except Fault SqlResultSet :=
  if left.fields.length ≠ right.fields.length then .error .sqlExecute
  else
    match operator with
    | .unionSet =>
      let kept := left.data.records.filter fun r => !hasRecord right.data.records r
      .ok { left with data := .list (kept ++ right.data.records) }
    | .intersection =>
      .ok { left with data := .list (left.data.records.filter (hasRecord right.data.records)) }
    | .other => .error .sqlExecute

/-- `analyze(SetOperatorExpression)`, run. -/
def runPlan : QueryStatementExpression → Exec SqlResultSet
  | .query query => runQuery malformed network strategy digit doubles order query
  | .setOperator operator left right => do
    let leftResult ← runPlan left
    let rightResult ← runPlan right
    planned (setOperateStep operator leftResult rightResult)

/-- `ExecutePlan.execute`: the result, and the queries that were run for it. -/
def execute (plan : QueryStatementExpression) : Except ExecFault (SqlResultSet × List QueryRun) :=
  runPlan malformed network strategy digit doubles order plan []

/-! ## §5. The queries of a plan. -/

mutual

/-- The number of sub-selects of an expression, with those inside them. -/
def SelectExp.queries : SelectExp → Nat
  | .operator _ left right => left.queries + right.queries
  | .column _ _ _ => 0
  | .subSelect _ _ query => query.queries
  | .other => 0

/-- That of an expression that may be `null`. -/
def optionQueries : Option SelectExp → Nat
  | none => 0
  | some exp => exp.queries

def withinQueries : List SelectExp → Nat
  | [] => 0
  | exp :: exps => exp.queries + withinQueries exps

def QueryExp.queries : QueryExp → Nat
  | .mk _ within hashWhere filterWhere having =>
    withinQueries within + optionQueries hashWhere + optionQueries filterWhere +
      optionQueries having + 1

end

def QueryStatementExpression.queries : QueryStatementExpression → Nat
  | .query q => q.queries
  | .setOperator _ left right => left.queries + right.queries

/-- The place of the leftmost query among them; its sub-selects come before it. -/
def QueryStatementExpression.lead : QueryStatementExpression → Nat
  | .query q => q.queries - 1
  | .setOperator _ left _ => left.lead

def ServerRef.Parsed (fields : Nat) (server : ServerRef) : Prop :=
  server.connected = true ∧ ∃ message, server.reply = .result message ∧
    ∃ parsed, parseResultMessage malformed { message with nodeId := server.serverId } fields =
      .ok parsed

/-- Every node the query should go to was asked, and its answer was parsed. -/
def QueryRun.Complete (run : QueryRun) : Prop :=
  ∀ nodeId ∈ run.nodes, ∃ server, (nodeId, server) ∈ run.asked ∧
    server.Parsed malformed run.fields

/-- A node that is not left out: a server of it can be used, or its master is online. -/
def ServerNode.Considered (node : ServerNode) : Prop :=
  node.isSelectAvailable = true ∨ ∃ master, node.masterDoc = some master ∧ master.online = true

/-- A server of the node can be used, and the one that is drawn is connected and sends a
result that can be parsed. -/
def Network.Serves (network : Network) (fields : Nat) (nodeId : Int) : Prop :=
  ∃ node, network.node nodeId = some node ∧
    let servers := (node.masterDoc.toList ++ node.slaveDocs).filter ServerRef.usable
    ∃ server ∈ servers[network.random nodeId % servers.length]?, server.Parsed malformed fields

/-- All nodes that the statement goes to serve it. -/
def Network.AllServe (network : Network) (stmt : QueryStatement) : Prop :=
  ∀ nodes, strategy.querySharding digit stmt.toStatement = .ok nodes →
    ∀ nodeId ∈ nodes, network.Serves malformed stmt.selectFields.length nodeId

/-- Some node that the statement goes to is considered, and all considered ones serve it. -/
def Network.LooksServed (network : Network) (stmt : QueryStatement) : Prop :=
  ∀ nodes, strategy.querySharding digit stmt.toStatement = .ok nodes →
    (∃ nodeId ∈ nodes, ∃ node, network.node nodeId = some node ∧ node.Considered) ∧
    ∀ nodeId ∈ nodes, (∃ node, network.node nodeId = some node ∧ node.Considered) →
      network.Serves malformed stmt.selectFields.length nodeId

variable {malformed network strategy digit doubles order}
  {α : Type} {log log' : List QueryRun} {fields : Nat}

theorem exec_bind {β : Type} {x : Exec α} {f : α → Exec β} {b : β}
    (h : (x >>= f) log = .ok (b, log')) :
    ∃ a mid, x log = .ok (a, mid) ∧ f a mid = .ok (b, log') := by
  change (x log >>= fun p => f p.1 p.2) = _ at h
  cases hx : x log with
  | error fault =>
    rw [hx] at h
    cases h
  | ok p =>
    rw [hx] at h
    exact ⟨p.1, p.2, rfl, h⟩

theorem exec_pure {a b : α} (h : (pure a : Exec α) log = .ok (b, log')) : b = a ∧ log' = log := by
  cases h
  exact ⟨rfl, rfl⟩

theorem planned_ok {step : Except Fault α} {a : α}
    (h : planned step log = .ok (a, log')) : step = .ok a ∧ log' = log := by
  cases step with
  | error fault => cases h
  | ok b =>
    cases h
    exact ⟨rfl, rfl⟩

/-- The query went to the nodes of `querySharding`, by the servers chosen on the network. -/
structure QueryRun.Sent (strategy : ShardingStrategy) (digit : UInt16 → Option Nat)
    (order : HashOrder) (network : Network) (run : QueryRun) : Prop where
  sharded : strategy.querySharding digit run.stmt.toStatement = .ok run.nodes
  chosen : network.chooseQueryDocumentServer (order.visit (nodeList run.nodes)) = .ok run.asked

/-- The queries that are run behind `before` others. -/
def AllSent (strategy : ShardingStrategy) (digit : UInt16 → Option Nat) (order : HashOrder)
    (network : Nat → Network) (before : Nat) (runs : List QueryRun) : Prop :=
  ∀ (i : Nat) (run : QueryRun), runs[i]? = some run →
    run.Sent strategy digit order (network (before + i))

theorem AllSent.append {before : Nat} {runs more : List QueryRun}
    (h : AllSent strategy digit order network before runs)
    (hmore : AllSent strategy digit order network (before + runs.length) more) :
    AllSent strategy digit order network before (runs ++ more) := by
  intro i run hrun
  by_cases hi : i < runs.length
  · rw [getElem?_append_left hi] at hrun
    exact h i run hrun
  · rw [getElem?_append_right (not_lt.mp hi)] at hrun
    have hsent := hmore _ run hrun
    rwa [show before + runs.length + (i - runs.length) = before + i by omega] at hsent

/-- The run of a part of a plan adds `n` queries. -/
def Adds {α : Type} (strategy : ShardingStrategy) (digit : UInt16 → Option Nat)
    (order : HashOrder) (network : Nat → Network) (n : Nat) (x : Exec α) : Prop :=
  ∀ log log' a, x log = .ok (a, log') →
    ∃ runs : List QueryRun, log' = log ++ runs ∧ runs.length = n ∧
      AllSent strategy digit order network log.length runs

theorem Adds.bind {β : Type} {x : Exec α} {f : α → Exec β} {m n : Nat}
    (hx : Adds strategy digit order network m x)
    (hf : ∀ a, Adds strategy digit order network n (f a)) :
    Adds strategy digit order network (m + n) (x >>= f) := by
  intro log log' b h
  obtain ⟨a, mid, hfirst, hsecond⟩ := exec_bind h
  obtain ⟨runs, rfl, hruns, hsent⟩ := hx _ _ _ hfirst
  obtain ⟨more, rfl, hmore, hsent'⟩ := hf a _ _ _ hsecond
  rw [length_append] at hsent'
  exact ⟨runs ++ more, append_assoc .., by rw [length_append, hruns, hmore], hsent.append hsent'⟩

theorem Adds.none {x : Exec α} (h : ∀ log log' a, x log = .ok (a, log') → log' = log) :
    Adds strategy digit order network 0 x := by
  intro log log' b hx
  exact ⟨[], by rw [h _ _ _ hx, append_nil], rfl, fun i run hrun => by simp at hrun⟩

theorem Adds.pure (a : α) : Adds strategy digit order network 0 (pure a : Exec α) :=
  .none fun _ _ _ h => (exec_pure h).2

theorem Adds.planned (step : Except Fault α) :
    Adds strategy digit order network 0 (planned step) :=
  .none fun _ _ _ h => (planned_ok h).2

/-! ## §6. What a query reports. -/

/-- The entries of `docState` are those of the servers that were asked. -/
structure QueryRun.Reported (malformed : Bytes → List UInt16) (strategy : ShardingStrategy)
    (digit : UInt16 → Option Nat) (order : HashOrder) (network : Network) (run : QueryRun)
    (docState : List DocDigestData) : Prop where
  sent : run.Sent strategy digit order network
  digests : Forall₂ (fun entry digest => DocDigestData.success digest = true ↔
    entry.2.Parsed malformed run.fields) run.asked docState

/-- The digest tells whether the reply was parsed. -/
theorem readMessage_success {message : AccessRsMessage} {digest : DocDigestData}
    {records : Option (List Record)}
    (h : readMessage malformed fields message = .ok (digest, records)) :
    digest.success = true ↔ ∃ parsed, parseResultMessage malformed message fields = .ok parsed := by
  rw [readMessage] at h
  cases hvalues : message.values with
  | none =>
    rw [hvalues] at h
    cases h
    refine iff_of_false Bool.false_ne_true ?_
    rintro ⟨parsed, hparsed⟩
    rw [parseResultMessage, hvalues] at hparsed
    cases hparsed
  | some values =>
    rw [hvalues] at h
    cases hparse : parseResultMessage malformed message fields with
    | error fault =>
      rw [hparse] at h
      cases h
    | ok parsed =>
      rw [hparse] at h
      cases h
      exact iff_of_true rfl ⟨parsed, rfl⟩

theorem failedMessage_not_parsed {nodeId id : Int32}
    {parsed : List ReadRecord × Bytes}
    (h : parseResultMessage malformed (failedMessage nodeId id) fields = .ok parsed) : False := by
  cases h

/-- When the reply of a server is parsed. -/
theorem answer_parsed {server : ServerRef} :
    (∃ parsed, parseResultMessage malformed server.answer fields = .ok parsed) ↔
      server.Parsed malformed fields := by
  by_cases hconnected : server.connected = true
  · rw [ServerRef.answer, if_pos hconnected]
    cases hreply : server.reply with
    | none | other =>
      refine iff_of_false (fun ⟨_, h⟩ => failedMessage_not_parsed h) ?_
      rintro ⟨-, message, hresult, -⟩
      cases hreply.symm.trans hresult
    | result message =>
      refine ⟨fun h => ⟨hconnected, message, hreply, h⟩, ?_⟩
      rintro ⟨-, message', hresult, h⟩
      cases hreply.symm.trans hresult
      exact h
  · rw [ServerRef.answer, if_neg hconnected]
    refine iff_of_false (fun ⟨_, h⟩ => failedMessage_not_parsed h) ?_
    rintro ⟨hyes, -⟩
    exact hconnected hyes

theorem readMessages_digests {asked : List (Int × ServerRef)}
    {messages : List (DocDigestData × Option (List Record))}
    (h : readMessages malformed fields (asked.map fun entry => entry.2.answer) = .ok messages) :
    Forall₂ (fun entry digest => DocDigestData.success digest = true ↔
      entry.2.Parsed malformed fields) asked (messages.map Prod.fst) := by
  induction asked generalizing messages with
  | nil =>
    cases h
    exact Forall₂.nil
  | cons entry asked ih =>
    rw [map_cons, readMessages] at h
    obtain ⟨first, hfirst, h⟩ := except_bind_ok h
    obtain ⟨rest, hrest, h⟩ := except_bind_ok h
    cases h
    exact Forall₂.cons ((readMessage_success hfirst).trans answer_parsed) (ih hrest)

/-- A select step logs one run. -/
theorem runSelect_ok {stmt : QueryStatement}
    {docState : List DocDigestData} {data : ResultData}
    (h : runSelect malformed network strategy digit order stmt log =
      .ok ((docState, data), log')) :
    ∃ run : QueryRun, log' = log ++ [run] ∧
      run.Reported malformed strategy digit order (network log.length) docState := by
  rw [runSelect] at h
  cases hsharding : strategy.querySharding digit stmt.toStatement with
  | error fault =>
    rw [hsharding] at h
    cases h
  | ok nodes =>
    simp only [hsharding] at h
    split at h
    next => cases h
    next =>
        split at h
        next => cases h
        next servers hservers =>
            split at h
            next => cases h
            next messages hmessages =>
                cases h
                exact ⟨_, rfl, ⟨hsharding, hservers⟩, readMessages_digests hmessages⟩

theorem runStatement_ok {stmt : QueryStatement} {result : SqlResultSet}
    (h : runStatement malformed network strategy digit doubles order stmt log =
      .ok (result, log')) :
    ∃ run : QueryRun, log' = log ++ [run] ∧
      run.Reported malformed strategy digit order (network log.length) result.docState := by
  rw [runStatement] at h
  obtain ⟨index, _, hindex, h₁⟩ := exec_bind h
  obtain ⟨-, rfl⟩ := planned_ok hindex
  obtain ⟨⟨docState, data⟩, _, hselect, h₂⟩ := exec_bind h₁
  obtain ⟨run, rfl, hreported⟩ := runSelect_ok hselect
  -- the steps behind the select step keep the `docState`
  obtain ⟨grouped, _, hgroup, h₃⟩ := exec_bind h₂
  obtain ⟨-, rfl⟩ := planned_ok hgroup
  obtain ⟨kept, _, hhaving, h₄⟩ := exec_bind h₃
  obtain ⟨-, rfl⟩ := planned_ok hhaving
  obtain ⟨ordered, _, horder, h₅⟩ := exec_bind h₄
  obtain ⟨-, rfl⟩ := planned_ok horder
  obtain ⟨records, _, houtput, h₆⟩ := exec_bind h₅
  obtain ⟨-, rfl⟩ := planned_ok houtput
  obtain ⟨rfl, rfl⟩ := exec_pure h₆
  exact ⟨run, rfl, hreported⟩

/-! ## §7. What a plan reports. -/

def ReportsLast (n : Nat) (malformed : Bytes → List UInt16) (strategy : ShardingStrategy)
    (digit : UInt16 → Option Nat) (order : HashOrder) (network : Nat → Network)
    (x : Exec SqlResultSet) : Prop :=
  ∀ log log' result, x log = .ok (result, log') → ∃ (runs : List QueryRun) (run : QueryRun),
    log' = log ++ (runs ++ [run]) ∧ runs.length + 1 = n ∧
      AllSent strategy digit order network log.length runs ∧
      run.Reported malformed strategy digit order (network (log.length + runs.length))
        result.docState

theorem ReportsLast.adds {n : Nat} {x : Exec SqlResultSet}
    (h : ReportsLast n malformed strategy digit order network x) :
    Adds strategy digit order network n x := by
  intro log log' result hx
  obtain ⟨runs, run, hlog, hlen, hsent, hreported⟩ := h _ _ _ hx
  refine ⟨runs ++ [run], hlog, by rw [length_append, length_singleton, hlen], hsent.append ?_⟩
  intro i last hlast
  cases i with
  | zero =>
    cases hlast
    exact hreported.sent
  | succ i => cases hlast

mutual

/-- Sub-selects add their runs to the log. -/
theorem bindExp_adds : ∀ exp : SelectExp,
    Adds strategy digit order network exp.queries
      (bindExp malformed network strategy digit doubles order exp)
  | .operator op left right => by
    rw [bindExp, SelectExp.queries]
    exact (bindExp_adds left).bind fun l => (bindExp_adds right).bind fun r => Adds.pure _
  | .column field comparetor values => by
    rw [bindExp, SelectExp.queries]
    exact Adds.pure _
  | .subSelect field comparetor query => by
    rw [bindExp, SelectExp.queries]
    exact (runQuery_reportsLast query).adds.bind fun result =>
      (Adds.planned _).bind fun values => Adds.pure _
  | .other => by
    rw [bindExp, SelectExp.queries]
    exact Adds.pure _

theorem bindOption_adds : ∀ exp : Option SelectExp,
    Adds strategy digit order network (optionQueries exp)
      (bindOption malformed network strategy digit doubles order exp)
  | none => by
    rw [bindOption, optionQueries]
    exact Adds.pure _
  | some exp => by
    rw [bindOption, optionQueries]
    exact (bindExp_adds exp).bind fun e => Adds.pure _

theorem bindWithin_adds : ∀ exps : List SelectExp,
    Adds strategy digit order network (withinQueries exps)
      (bindWithin malformed network strategy digit doubles order exps)
  | [] => by
    rw [bindWithin, withinQueries]
    exact Adds.pure _
  | exp :: exps => by
    rw [bindWithin, withinQueries]
    exact (bindExp_adds exp).bind fun e => bindWithin_adds exps

/-- A query reports its own run, behind its sub-selects. -/
theorem runQuery_reportsLast : ∀ query : QueryExp,
    ReportsLast query.queries malformed strategy digit order network
      (runQuery malformed network strategy digit doubles order query)
  | .mk head within hashWhere filterWhere having => by
    intro log log' result h
    rw [runQuery] at h
    obtain ⟨_, mid, hwithin, h⟩ := exec_bind h
    obtain ⟨runs₁, rfl, hlen₁, hsent₁⟩ := bindWithin_adds within _ _ _ hwithin
    obtain ⟨hash, mid, hhash, h⟩ := exec_bind h
    obtain ⟨runs₂, rfl, hlen₂, hsent₂⟩ := bindOption_adds hashWhere _ _ _ hhash
    obtain ⟨filter, mid, hfilter, h⟩ := exec_bind h
    obtain ⟨runs₃, rfl, hlen₃, hsent₃⟩ := bindOption_adds filterWhere _ _ _ hfilter
    obtain ⟨cond, mid, hhaving, h⟩ := exec_bind h
    obtain ⟨runs₄, rfl, hlen₄, hsent₄⟩ := bindOption_adds having _ _ _ hhaving
    obtain ⟨run, rfl, hreported⟩ := runStatement_ok h
    refine ⟨runs₁ ++ (runs₂ ++ (runs₃ ++ runs₄)), run, ?_, ?_, ?_, ?_⟩
    · simp only [append_assoc]
    · rw [QueryExp.queries]
      simp only [length_append]
      omega
    · simp only [length_append] at hsent₂ hsent₃ hsent₄
      exact hsent₁.append (hsent₂.append (hsent₃.append hsent₄))
    · simpa only [length_append, Nat.add_assoc] using hreported

end

/-- A plan reports the run of its leftmost query. -/
theorem runPlan_lead (plan : QueryStatementExpression) {log log' : List QueryRun}
    {result : SqlResultSet}
    (h : runPlan malformed network strategy digit doubles order plan log = .ok (result, log')) :
    ∃ runs : List QueryRun, log' = log ++ runs ∧ runs.length = plan.queries ∧
      AllSent strategy digit order network log.length runs ∧ ∃ lead, runs[plan.lead]? = some lead ∧
        lead.Reported malformed strategy digit order (network (log.length + plan.lead))
          result.docState := by
  induction plan generalizing log log' result with
  | query query =>
    rw [runPlan] at h
    obtain ⟨runs, run, hlog, hlen, -, hreported⟩ := runQuery_reportsLast query _ _ _ h
    obtain ⟨_, hlog', -, hsent⟩ := (runQuery_reportsLast query).adds _ _ _ h
    obtain rfl := append_cancel_left (hlog'.symm.trans hlog)
    have hlead : (QueryStatementExpression.query query).lead = runs.length := by
      rw [QueryStatementExpression.lead]
      omega
    refine ⟨runs ++ [run], hlog, ?_, hsent, run, ?_, ?_⟩
    · rw [length_append, length_singleton, hlen, QueryStatementExpression.queries]
    · rw [hlead, getElem?_append_right le_rfl, Nat.sub_self]
      rfl
    · rw [hlead]
      exact hreported
  | setOperator operator left right ihl ihr =>
    rw [runPlan] at h
    obtain ⟨leftResult, mid, hleft, h⟩ := exec_bind h
    obtain ⟨rightResult, mid', hright, h⟩ := exec_bind h
    obtain ⟨hstep, rfl⟩ := planned_ok h
    obtain ⟨runs, rfl, hlen, hsent, lead, hlead, hreported⟩ := ihl hleft
    obtain ⟨more, rfl, hmore, hsent', -⟩ := ihr hright
    rw [length_append] at hsent'
    -- the step returns the left result, with other records
    have hstate : result.docState = leftResult.docState := by
      unfold setOperateStep at hstep
      split at hstep
      next => cases hstep
      next =>
          split at hstep
          next =>
              cases hstep
              rfl
          next =>
              cases hstep
              rfl
          next => cases hstep
    obtain ⟨hlt, -⟩ := List.getElem?_eq_some_iff.mp hlead
    refine ⟨runs ++ more, append_assoc .., ?_, hsent.append hsent', lead, ?_, ?_⟩
    · rw [length_append, hlen, hmore, QueryStatementExpression.queries]
    · rw [QueryStatementExpression.lead, getElem?_append_left hlt]
      exact hlead
    · rw [QueryStatementExpression.lead, hstate]
      exact hreported

end Run

/-! ## §8. Two nodes. -/

def emptyMessage : AccessRsMessage := ⟨0, 0, 0, .ofNat mtDmRs, 0, 0, [], some []⟩

def oneServer (reply : Reply) : ServerNode := ⟨some ⟨1, true, true, true, reply⟩, []⟩

def offlineNode : ServerNode := ⟨some ⟨2, false, false, false, .none⟩, []⟩

def twoNodes : ShardingStrategy := ⟨⟨fun _ => none⟩, {1, 2}⟩

/-- `SELECT a FROM t`. -/
def plainQuery : QueryExp :=
  .mk ⟨"t", .commonQuery, [⟨"a", "a", "", none, none, ""⟩], [], [], 50, 0⟩ [] none none none

/-- `SELECT a FROM t WHERE a IN (SELECT a FROM t)`. -/
def nestedQuery : QueryExp :=
  .mk ⟨"t", .commonQuery, [⟨"a", "a", "", none, none, ""⟩], [], [], 50, 0⟩ [] none
    (some (.subSelect ⟨"a", "a", "", none, none, ""⟩ .in plainQuery)) none

/-- The first node answers always, and the second one is as told for each query. -/
def twoNodeNetwork (second : Nat → ServerNode) (k : Nat) : Network where
  node id := some (if id = 1 then oneServer (.result emptyMessage) else second k)
  random _ := 0

def twoNodeRun (second : Nat → ServerNode) (plan : QueryStatementExpression) :
    Except ExecFault (SqlResultSet × List QueryRun) :=
  execute (fun _ => []) (twoNodeNetwork second) twoNodes (fun _ => none) noDoubles fillOrder plan

/-- A result is reported as successful, and a query of the plan is not complete. -/
def FalseSuccess (outcome : Except ExecFault (SqlResultSet × List QueryRun)) : Prop :=
  ∃ result log, outcome = .ok (result, log) ∧ result.isSuccessful = true ∧
    ∃ run ∈ log, ¬ run.Complete fun _ => []

def ServerRef.silent (server : ServerRef) : Bool :=
  match server.reply with
  | .result _ => false
  | _ => true

def QueryRun.lacksSecond (run : QueryRun) : Bool :=
  2 ∈ run.nodes && run.asked.all fun entry => entry.1 ≠ 2 || entry.2.silent

theorem QueryRun.not_complete_of_lacksSecond {malformed : Bytes → List UInt16} {run : QueryRun}
    (h : run.lacksSecond = true) : ¬ run.Complete malformed := by
  rw [QueryRun.lacksSecond, Bool.and_eq_true, decide_eq_true_eq, all_eq_true] at h
  intro hcomplete
  obtain ⟨server, hasked, -, message, hreply, -⟩ := hcomplete 2 h.1
  have hsilent := h.2 _ hasked
  rw [Bool.or_eq_true, decide_eq_true_eq, ServerRef.silent, hreply] at hsilent
  exact hsilent.elim (fun hne => hne rfl) Bool.false_ne_true

theorem falseSuccess_of_test {outcome : Except ExecFault (SqlResultSet × List QueryRun)}
    (h : (match outcome with
      | .ok (result, log) => result.isSuccessful && log.any QueryRun.lacksSecond
      | .error _ => false) = true) : FalseSuccess outcome := by
  cases outcome with
  | error fault => cases h
  | ok pair =>
    rw [Bool.and_eq_true, any_eq_true] at h
    obtain ⟨hsuccess, run, hmem, hlacks⟩ := h
    exact ⟨pair.1, pair.2, rfl, hsuccess, run, hmem, QueryRun.not_complete_of_lacksSecond hlacks⟩

/-! ## §9. Success. -/

section Success

variable {malformed : Bytes → List UInt16} {network : Nat → Network} {strategy : ShardingStrategy}
  {digit : UInt16 → Option Nat} {doubles : DoubleFuncs} {order : HashOrder} {nodes : Network}

/-- The servers that are asked. -/
theorem mem_chosen_iff {nodeIds : List Int} {asked : List (Int × ServerRef)}
    (h : nodes.chooseQueryDocumentServer nodeIds = .ok asked) {nodeId : Int} {server : ServerRef} :
    (nodeId, server) ∈ asked ↔
      nodeId ∈ nodeIds ∧ nodes.chooseServer nodeId = .ok (some server) := by
  induction nodeIds generalizing asked with
  | nil =>
    cases h
    simp
  | cons first nodeIds ih =>
    rw [Network.chooseQueryDocumentServer] at h
    obtain ⟨choice, hchoice, hrest⟩ := except_bind_ok h
    obtain ⟨servers, hservers, hdone⟩ := except_bind_ok hrest
    cases hdone
    rw [mem_append, ih hservers, mem_cons, Option.mem_toList, Option.map_eq_some_iff]
    constructor
    · rintro (⟨s, rfl, heq⟩ | ⟨hmem, hserver⟩)
      · obtain ⟨rfl, rfl⟩ := Prod.mk.inj heq
        exact ⟨.inl rfl, hchoice⟩
      · exact ⟨.inr hmem, hserver⟩
    · rintro ⟨rfl | hmem, hserver⟩
      · cases hchoice.symm.trans hserver
        exact .inl ⟨server, rfl, rfl⟩
      · exact .inr ⟨hmem, hserver⟩

theorem chooses_of_chosen {nodeIds : List Int} {asked : List (Int × ServerRef)}
    (h : nodes.chooseQueryDocumentServer nodeIds = .ok asked) {nodeId : Int}
    (hmem : nodeId ∈ nodeIds) : ∃ choice, nodes.chooseServer nodeId = .ok choice := by
  induction nodeIds generalizing asked with
  | nil => cases hmem
  | cons first nodeIds ih =>
    rw [Network.chooseQueryDocumentServer] at h
    obtain ⟨choice, hchoice, hrest⟩ := except_bind_ok h
    obtain ⟨servers, hservers, -⟩ := except_bind_ok hrest
    rcases mem_cons.mp hmem with rfl | hmem
    · exact ⟨choice, hchoice⟩
    · exact ih hservers hmem

theorem unconnected_not_parsed {nodeId : Int} {fields : Nat} :
    ¬ (unconnected nodeId).Parsed malformed fields := by
  rintro ⟨hconnected, -⟩
  cases hconnected

/-- What a choice that is made says about the node: whether it is considered, and whether
it serves. -/
theorem chooseServer_spec {nodeId : Int} {choice : Option ServerRef} {fields : Nat}
    (h : nodes.chooseServer nodeId = .ok choice) :
    (choice.isSome = true ↔ ∃ node, nodes.node nodeId = some node ∧ node.Considered) ∧
      ((∃ server, choice = some server ∧ server.Parsed malformed fields) ↔
        nodes.Serves malformed fields nodeId) := by
  rw [Network.chooseServer] at h
  unfold Network.Serves
  cases hnode : nodes.node nodeId with
  | none =>
    rw [hnode] at h
    cases h
  | some node =>
    rw [hnode] at h
    simp only [Option.some.injEq, exists_eq_left', ServerNode.Considered]
    cases hmaster : node.masterDoc with
    | none =>
      simp only [hmaster] at h
      cases h
    | some master =>
      simp only [hmaster, Option.toList_some, singleton_append] at h ⊢
      by_cases havailable : node.isSelectAvailable = true
      · rw [if_pos havailable] at h
        cases h
        refine ⟨iff_of_true rfl (.inl havailable), ?_⟩
        simp only [Option.some.injEq, exists_eq_left']
        generalize ((master :: node.slaveDocs).filter ServerRef.usable)[(_ : Nat)]? = drawn
        cases drawn with
        | none => simp [unconnected_not_parsed]
        | some server => simp
      · have hnone : (master :: node.slaveDocs).filter ServerRef.usable = [] := by
          rw [ServerNode.isSelectAvailable, hmaster] at havailable
          simp only [Option.any_some, Bool.or_eq_true, not_or, any_eq_true, not_exists,
            not_and] at havailable
          rw [filter_eq_nil_iff]
          exact forall_mem_cons.mpr havailable
        rw [if_neg havailable] at h
        rw [hnone]
        simp only [havailable, Bool.false_eq_true, Option.some.injEq, exists_eq_left', false_or,
          getElem?_nil, Option.not_mem_none, false_and, exists_false, iff_false, not_exists]
        by_cases honline : master.online = true
        · rw [if_pos honline] at h
          cases h
          refine ⟨iff_of_true rfl honline, ?_⟩
          rintro server ⟨heq, hparsed⟩
          cases heq
          exact unconnected_not_parsed hparsed
        · rw [if_neg honline] at h
          cases h
          refine ⟨iff_of_false Bool.false_ne_true honline, ?_⟩
          rintro server ⟨heq, -⟩
          cases heq

section Sent

variable {run : QueryRun} (h : run.Sent strategy digit order nodes)
include h

theorem QueryRun.Sent.mem_asked {nodeId : Int} {server : ServerRef} :
    (nodeId, server) ∈ run.asked ↔
      nodeId ∈ run.nodes ∧ nodes.chooseServer nodeId = .ok (some server) := by
  rw [mem_chosen_iff h.chosen, (order.perm _).mem_iff, mem_nodeList]

theorem QueryRun.Sent.chooses {nodeId : Int} (hmem : nodeId ∈ run.nodes) :
    ∃ choice, nodes.chooseServer nodeId = .ok choice :=
  chooses_of_chosen h.chosen (((order.perm _).mem_iff).mpr (mem_nodeList.mpr hmem))

/-- A query is complete exactly if all its nodes serve it. -/
theorem QueryRun.Sent.complete_iff :
    run.Complete malformed ↔ nodes.AllServe malformed strategy digit run.stmt := by
  unfold QueryRun.Complete Network.AllServe
  rw [h.sharded]
  simp only [Except.ok.injEq, forall_eq']
  refine forall_congr' fun nodeId => forall_congr' fun hmem => ?_
  obtain ⟨choice, hchoice⟩ := h.chooses hmem
  rw [← (chooseServer_spec hchoice).2]
  refine exists_congr fun server => and_congr_left fun _ => ?_
  rw [h.mem_asked, hchoice]
  simp [hmem]

/-- All servers that were asked answered, and there is one, exactly if the query looks
served. -/
theorem QueryRun.Sent.answered_iff :
    (run.asked ≠ [] ∧ ∀ entry ∈ run.asked, entry.2.Parsed malformed run.fields) ↔
      nodes.LooksServed malformed strategy digit run.stmt := by
  unfold Network.LooksServed
  rw [h.sharded]
  simp only [Except.ok.injEq, forall_eq']
  refine and_congr ?_ ?_
  · rw [ne_eq, eq_nil_iff_forall_not_mem, not_forall_not, Prod.exists]
    refine exists_congr fun nodeId => ?_
    simp only [h.mem_asked, exists_and_left]
    refine and_congr_right fun hmem => ?_
    obtain ⟨choice, hchoice⟩ := h.chooses hmem
    rw [← (@chooseServer_spec malformed nodes nodeId choice 0 hchoice).1, hchoice,
      Option.isSome_iff_exists]
    simp
  · rw [Prod.forall]
    refine forall_congr' fun nodeId => ?_
    simp only [h.mem_asked, and_imp]
    constructor
    · intro hall hmem hconsidered
      obtain ⟨choice, hchoice⟩ := h.chooses hmem
      obtain ⟨hsome, hserves⟩ := @chooseServer_spec malformed nodes nodeId choice
        run.stmt.selectFields.length hchoice
      obtain ⟨server, rfl⟩ := Option.isSome_iff_exists.mp (hsome.mpr hconsidered)
      exact hserves.mp ⟨server, rfl, hall server hmem hchoice⟩
    · intro hall server hmem hchoice
      obtain ⟨hsome, hserves⟩ := @chooseServer_spec malformed nodes nodeId (some server)
        run.stmt.selectFields.length hchoice
      obtain ⟨server', heq, hparsed⟩ := hserves.mpr (hall hmem (hsome.mp rfl))
      cases heq
      exact hparsed

end Sent

/-- When a run is reported successful. -/
theorem QueryRun.Reported.successful {run : QueryRun} {result : SqlResultSet}
    (h : run.Reported malformed strategy digit order nodes result.docState) :
    result.isSuccessful = true ↔ nodes.LooksServed malformed strategy digit run.stmt := by
  have hempty : result.docState.isEmpty = false ↔ run.asked ≠ [] := by
    rw [isEmpty_eq_false_iff, ne_eq, ne_eq, ← length_eq_zero_iff,
      ← length_eq_zero_iff, h.digests.length_eq]
  have hall : (result.docState.all DocDigestData.success = true) ↔
      ∀ entry ∈ run.asked, entry.2.Parsed malformed run.fields := by
    rw [all_eq_true]
    have hdigests := h.digests
    generalize run.asked = asked, result.docState = docState at hdigests
    induction hdigests with
    | nil => simp
    | cons hhead _ ih =>
      rw [forall_mem_cons, forall_mem_cons]
      exact and_congr hhead ih
  rw [SqlResultSet.isSuccessful, Bool.and_eq_true, Bool.not_eq_true', hempty, hall,
    h.sent.answered_iff]

/-- **What a successful result says.**  It is complete exactly if the nodes of every query of
the plan serve it, whenever those of the leftmost query look as if they do: the nodes that are
considered serve it, and there is one.  Right sides of set operations, sub-selects and nodes
that are not considered are not looked at. -/
theorem successful_iff_complete {plan : QueryStatementExpression} {result : SqlResultSet}
    {log : List QueryRun}
    (h : execute malformed network strategy digit doubles order plan = .ok (result, log)) :
    ∃ lead, log[plan.lead]? = some lead ∧
      ((result.isSuccessful = true → ∀ run ∈ log, run.Complete malformed) ↔
        ((network plan.lead).LooksServed malformed strategy digit lead.stmt →
          ∀ i run, log[i]? = some run →
            (network i).AllServe malformed strategy digit run.stmt)) := by
  obtain ⟨runs, hlog, -, hsent, lead, hlead, hreported⟩ := runPlan_lead plan h
  rw [nil_append] at hlog
  subst hlog
  rw [length_nil, Nat.zero_add] at hreported
  refine ⟨lead, hlead, ?_⟩
  rw [hreported.successful]
  refine forall_congr' fun _ => ?_
  have hcomplete : ∀ i run, log[i]? = some run →
      (run.Complete malformed ↔ (network i).AllServe malformed strategy digit run.stmt) := by
    intro i run hrun
    have hrun' := hsent i run hrun
    rw [length_nil, Nat.zero_add] at hrun'
    exact hrun'.complete_iff
  constructor
  · intro hall i run hrun
    exact (hcomplete i run hrun).mp (hall run (mem_of_getElem? hrun))
  · intro hall run hmem
    obtain ⟨i, hi⟩ := mem_iff_getElem?.mp hmem
    exact (hcomplete i run hi).mpr (hall i run hi)

end Success

/-- A union whose left side has a sub-select; both nodes answer all three queries. -/
theorem successful_iff_complete_two_nodes :
    ∃ result log, twoNodeRun (fun _ => oneServer (.result emptyMessage))
        (.setOperator .unionSet (.query nestedQuery) (.query plainQuery)) = .ok (result, log) ∧
      log.length = 3 ∧ result.isSuccessful = true ∧ ∀ run ∈ log, run.Complete fun _ => [] := by
  have hok : (match twoNodeRun (fun _ => oneServer (.result emptyMessage))
      (.setOperator .unionSet (.query nestedQuery) (.query plainQuery)) with
      | .ok (result, log) => log.length = 3 && result.isSuccessful
      | .error _ => false) = true := by
    decide +kernel
  cases hrun : twoNodeRun (fun _ => oneServer (.result emptyMessage))
      (.setOperator .unionSet (.query nestedQuery) (.query plainQuery)) with
  | error fault =>
    rw [hrun] at hok
    cases hok
  | ok pair =>
    rw [hrun, Bool.and_eq_true, decide_eq_true_eq] at hok
    obtain ⟨lead, hlead, hiff⟩ := successful_iff_complete hrun
    refine ⟨pair.1, pair.2, rfl, hok.1, hok.2, hiff.mpr (fun _ i run _ => ?_) hok.2⟩
    -- every node sends an empty result, whatever it is asked
    intro nodes _ nodeId _
    refine ⟨oneServer (.result emptyMessage), ?_, _, rfl, rfl, emptyMessage, rfl, _, rfl⟩
    exact congrArg some (ite_self _)

/-- The right side of a UNION times out on a node; a sub-select does; a node is offline. -/
theorem failures_reported_as_success :
    FalseSuccess (twoNodeRun (fun k => oneServer (if k = 0 then .result emptyMessage else .none))
      (.setOperator .unionSet (.query plainQuery) (.query plainQuery))) ∧
    FalseSuccess (twoNodeRun (fun k => oneServer (if k = 0 then .none else .result emptyMessage))
      (.query nestedQuery)) ∧
    FalseSuccess (twoNodeRun (fun _ => offlineNode) (.query plainQuery)) :=
  ⟨falseSuccess_of_test (by decide +kernel), falseSuccess_of_test (by decide +kernel),
    falseSuccess_of_test (by decide +kernel)⟩

end Mile.Merge
