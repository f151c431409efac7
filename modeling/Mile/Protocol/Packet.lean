/-
  Mile.Protocol.Packet
  ────────────────────
  **THE PACKET PARSERS** (`protocol/packet.cpp`).

  A parser reads its packet field by field and returns `NULL` when a component it checks fails or
  a read has passed the end; some components are not checked.
-/
import Mile.Protocol.DataBuffer

namespace Mile.Protocol

open Lib Common

/-! ## §1. Packets. -/

/-- A value of a packet, with the byte of its type. -/
structure DynValue where
  type : Nat
  data : Bytes
  deriving DecidableEq

/-- `struct condition_t`. -/
structure Condition where
  type : Nat
  fieldName : Option Bytes
  comparator : Nat
  values : List DynValue
  deriving DecidableEq

/-- `struct condition_array`: its count, and the conditions before the one at
which the parser gave up. -/
structure ConditionArray where
  n : Nat
  conditions : List Condition
  deriving DecidableEq

def ConditionArray.Complete (a : ConditionArray) : Prop := a.conditions.length = a.n

/-- `struct hint_array`. -/
structure HintArray where
  n : Nat
  hints : List Nat
  deriving DecidableEq

/-- `struct select_field_t`. -/
structure SelectField where
  type : Nat
  fieldName : Option Bytes
  aliseName : Option Bytes
  funcType : Nat
  selectName : Option Bytes
  rangeExp : Option ConditionArray
  deriving DecidableEq

/-- `struct order_field_t`. -/
structure OrderField where
  fieldName : Option Bytes
  orderType : Nat
  deriving DecidableEq

/-- `struct insert_packet`, `delete_packet`, `update_packet`, `export_packet` and
`query_packet`. -/
inductive Packet where
  | insert (tableName : Option Bytes) (datas : List (Option Bytes × DynValue))
  | delete (tableName : Option Bytes) (hiArray : HintArray)
      (indexCond filterCond : ConditionArray)
  | update (tableName fieldName : Option Bytes) (data : DynValue) (hiArray : HintArray)
      (indexCond filterCond : ConditionArray)
  | export (tableName savePath : Option Bytes) (hiArray : HintArray)
      (indexCond filterCond : ConditionArray) (limit : Nat)
  | query (accessType : Nat) (tableName : Option Bytes) (hiArray : HintArray)
      (selectField : List SelectField) (indexCond filterCond : ConditionArray)
      (groupArray : List (Option Bytes)) (groupOrderArray : List OrderField) (groupLimit : Nat)
      (orderArray : List OrderField) (limit : Nat)

inductive PacketKind where
  | insert
  | delete
  | update
  | export
  | query
  deriving DecidableEq

/-! ## §2. The operations under the source's names. -/

/-- A parser that gives up with an `ε`. -/
abbrev Parse (ε α : Type) : Type := Prog ReadOp.Res ε α

section Reads

variable {ε : Type}

/-- The `read_int` of a width. -/
def readWidth (width : Nat) : Parse ε Nat := Prog.ask (ReadOp.int width)

/-- `read_int8`. -/
def readInt8 : Parse ε Nat := readWidth 1

/-- `read_int16`. -/
def readInt16 : Parse ε Nat := readWidth 2

/-- `read_int32`. -/
def readInt32 : Parse ε Nat := readWidth 4

/-- `read_int64`. -/
def readInt64 : Parse ε Nat := readWidth 8

/-- `read_bytes` into new memory. -/
def bytes (len : Nat) : Parse ε (Option Bytes) := Prog.ask (ReadOp.bytes len)

/-- `read_cstring`. -/
def cstring : Parse ε (Option Bytes) := Prog.ask ReadOp.cstring

/-- `len > rbuf->data_len - rbuf->rpos`. -/
def exceeds (len : Nat) : Parse ε Bool := Prog.ask (ReadOp.exceeds len)

/-- A `memcpy` from a local variable. -/
def copy (temp : Bytes) (len : Nat) : Parse ε Bytes := Prog.ask (ReadOp.copy temp len)

/-- A `mem_pool_malloc` and the `memset` behind it. -/
def alloc (size : Nat) : Parse ε Unit := Prog.ask (ReadOp.alloc size)

/-- The `array_border` field. -/
def border : Parse ε Bool := Prog.ask ReadOp.border

def mark (m : Mark) : Parse ε Unit := Prog.ask (ReadOp.mark m)

def returned (c : Component) (ok : Bool) : Parse ε Unit := Prog.ask (ReadOp.returned c ok)

def called {α : Type} (c : Component) (m : Parse ε α) : Parse ε α := do
  let r ← m.attempt
  returned c r.isOk
  match r with
  | .ok a => .pure a
  | .error e => .fail e

/-- `if(f() < 0) return NULL`. -/
def orNull {α : Type} (m : Parse ε α) : Parse Unit α := m.mapFail fun _ => ()

end Reads

/-! ## §3. The components. -/

/-- The types `read_dyn_value` reads into a local variable of that many bytes. -/
def fixedWidth : FieldType → Option Nat
  | .tiny => some 1
  | .short => some 2
  | .unsignedShort => some 2
  | .long => some 4
  | .unsignedLong => some 4
  | .longlong => some 8
  | .unsignedLonglong => some 8
  | .float => some 4
  | .double => some 8
  | _ => none

theorem fixedWidth_le {t : FieldType} {width : Nat} (h : fixedWidth t = some width) :
    width ≤ 8 := by
  cases t <;> cases h <;> decide

/-- The `switch` of `read_dyn_value` on a value of `len` bytes. -/
def readTyped (type len : Nat) : Parse ResultCode DynValue :=
  match FieldType.ofByte? (UInt8.ofNat type) with
  | none => .fail .errorPacketFormat
  | some t =>
    match fixedWidth t with
    | some width => do
      let v ← readWidth width
      let data ← copy (leBytes width v) len
      .pure ⟨type, data⟩
    | none =>
      if t = .varchar ∨ t = .string then do
        let data ← bytes len
        .pure ⟨type, data.getD []⟩
      else .fail .errorPacketFormat

/-- `read_dyn_value`. -/
def readDynValue (memSize : Nat) : Parse ResultCode DynValue := do
  mark .dynValue
  let type ← readInt8
  if type = FieldType.null.toByte.toNat then .pure ⟨type, []⟩
  else do
    let len ← readInt32
    let tooLong ← exceeds len
    if tooLong then .fail .errorPacketFormat
    else if memSize < len then .fail .errorNotEnoughMemory
    else if len = 0 then .pure ⟨type, []⟩
    else readTyped type len

/-- `CONDITION_EXP`. -/
def conditionExp : Nat := 1

/-- `LOGIC_AND`. -/
def logicAnd : Nat := 2

/-- `LOGIC_OR`. -/
def logicOr : Nat := 3

/-- `sizeof(struct low_data_struct)`. -/
def sizeofLowData : Nat := 32

/-- `sizeof(struct condition_t)`. -/
def sizeofCondition : Nat := 40

/-- `sizeof(struct select_field_t)`. -/
def sizeofSelectField : Nat := 56

/-- `sizeof(struct group_field_t)`. -/
def sizeofGroupField : Nat := 16

/-- `sizeof(struct order_field_t)`. -/
def sizeofOrderField : Nat := 16

/-- A value of a condition; `ignored` tells whether the caller ignores the
return code. -/
def parseValue (memSize : Nat) (ignored : Bool) : Parse ResultCode DynValue := do
  if ignored then mark .value
  called .value (readDynValue memSize)

/-- The body of the loop of `parse_condition`. -/
def parseConditionItem (memSize : Nat) (ignored : Bool) : Parse ResultCode Condition := do
  if ignored then mark .condition
  let type ← readInt8
  if type = conditionExp then do
    let fieldName ← cstring
    let comparator ← readInt8
    let valueNum ← readInt32
    alloc (valueNum * sizeofLowData)
    let values ← (Prog.collect (parseValue memSize ignored) valueNum).mapFail
      fun _ => ResultCode.errorPacketFormat
    .pure ⟨type, fieldName, comparator, values⟩
  else if type = logicAnd ∨ type = logicOr then .pure ⟨type, none, 0, []⟩
  else .fail .errorPacketFormat

/-- `parse_condition`; it leaves the conditions so far when it gives up. -/
def parseCondition (memSize : Nat) (ignored : Bool) : Parse ConditionArray ConditionArray := do
  let n ← readInt32
  if n = 0 then .pure ⟨0, []⟩
  else do
    alloc (n * sizeofCondition)
    let conditions ← (Prog.collect (parseConditionItem memSize ignored) n).mapFail
      fun cs => ConditionArray.mk n cs
    .pure ⟨n, conditions⟩

/-- `parse_hint_array`. -/
def parseHintArray : Parse HintArray HintArray := do
  let n ← readInt32
  if n ≠ 4 then .fail ⟨n, []⟩
  else do
    alloc (8 * n)
    let hints ← (Prog.collect (readInt64 : Parse Unit Nat) n).mapFail fun hs => HintArray.mk n hs
    .pure ⟨n, hints⟩

def whatever {α : Type} : Except α α → α
  | .ok a => a
  | .error a => a

/-- The body of the loop of `parse_select_field_array`; the return code of the
range expression's parser is ignored. -/
def parseSelectField (memSize : Nat) : Parse Unit SelectField := do
  let type ← readInt8
  if type = 0 then do
    let fieldName ← cstring
    let aliseName ← cstring
    .pure ⟨type, fieldName, aliseName, 0, none, none⟩
  else if type = 1 then do
    let code ← readInt8
    let selectName ← cstring
    let aliseName ← cstring
    let fieldName ← cstring
    if 128 ≤ code then do
      let rangeExp ← (called .conditions (parseCondition memSize true)).attempt
      .pure ⟨type, fieldName, aliseName, code - 128, selectName, some (whatever rangeExp)⟩
    else .pure ⟨type, fieldName, aliseName, code, selectName, none⟩
  else if type = 2 then .pure ⟨type, none, none, 0, none, none⟩
  else .fail ()

/-- `parse_select_field_array`. -/
def parseSelectFieldArray (memSize : Nat) : Parse Unit (List SelectField) := do
  let n ← readInt32
  alloc (n * sizeofSelectField)
  orNull (Prog.collect (parseSelectField memSize) n)

/-- `parse_group_field`. -/
def parseGroupField : Parse Unit (List (Option Bytes)) := do
  let n ← readInt32
  if n = 0 then .pure []
  else do
    alloc (n * sizeofGroupField)
    orNull (Prog.collect (cstring : Parse Unit (Option Bytes)) n)

/-- `parse_order_field`. -/
def parseOrderField : Parse Unit (List OrderField) := do
  let n ← readInt32
  if n = 0 then .pure []
  else do
    alloc (n * sizeofOrderField)
    orNull (Prog.collect (do
      let fieldName ← cstring
      let orderType ← readInt8
      (.pure ⟨fieldName, orderType⟩ : Parse Unit OrderField)) n)

/-! ## §4. The packets. -/

def finish (packet : Packet) : Parse Unit Packet := do
  let crossed ← border
  if crossed then .fail () else .pure packet

def uncheckedHints : Parse Unit HintArray := do
  let hiArray ← (do mark .hints; called .hints parseHintArray : Parse HintArray HintArray).attempt
  .pure (whatever hiArray)

def checkedCondition (memSize : Nat) : Parse Unit ConditionArray :=
  orNull (called .conditions (parseCondition memSize false))

/-- A column of `parse_insert_packet`. -/
def parseColumn (memSize : Nat) : Parse ResultCode (Option Bytes × DynValue) := do
  let fieldName ← cstring
  let value ← called .value (readDynValue memSize)
  .pure (fieldName, value)

/-- `parse_insert_packet`. -/
def parseInsertPacket (memSize : Nat) : Parse Unit Packet := do
  let tableName ← cstring
  let columnNum ← readInt32
  if 1024 < columnNum then .fail ()
  else do
    alloc (columnNum * sizeofLowData)
    let datas ← orNull (Prog.collect (parseColumn memSize) columnNum)
    finish (.insert tableName datas)

/-- `parse_delete_packet`. -/
def parseDeletePacket (memSize : Nat) : Parse Unit Packet := do
  let tableName ← cstring
  let hiArray ← uncheckedHints
  let indexCond ← checkedCondition memSize
  let filterCond ← checkedCondition memSize
  finish (.delete tableName hiArray indexCond filterCond)

/-- `parse_export_packet`. -/
def parseExportPacket (memSize : Nat) : Parse Unit Packet := do
  let tableName ← cstring
  let savePath ← cstring
  let hiArray ← uncheckedHints
  let indexCond ← checkedCondition memSize
  let filterCond ← checkedCondition memSize
  let limit ← readInt64
  finish (.export tableName savePath hiArray indexCond filterCond limit)

/-- `parse_update_packet`. -/
def parseUpdatePacket (memSize : Nat) : Parse Unit Packet := do
  let tableName ← cstring
  let fieldName ← cstring
  let data ← orNull (called .value (readDynValue memSize))
  let hiArray ← uncheckedHints
  let indexCond ← checkedCondition memSize
  let filterCond ← checkedCondition memSize
  finish (.update tableName fieldName data hiArray indexCond filterCond)

/-- `parse_query_packet`. -/
def parseQueryPacket (memSize : Nat) : Parse Unit Packet := do
  let accessType ← readInt16
  let tableName ← cstring
  let hiArray ← orNull (called .hints parseHintArray)
  let selectField ← called .selectFields (parseSelectFieldArray memSize)
  let indexCond ← checkedCondition memSize
  let filterCond ← checkedCondition memSize
  let groupArray ← parseGroupField
  let groupOrderArray ← parseOrderField
  let groupLimit ← readInt32
  let orderArray ← parseOrderField
  let limit ← readInt32
  finish (.query accessType tableName hiArray selectField indexCond filterCond groupArray
    groupOrderArray groupLimit orderArray limit)

def parsePacket (memSize : Nat) : PacketKind → Parse Unit Packet
  | .insert => parseInsertPacket memSize
  | .delete => parseDeletePacket memSize
  | .update => parseUpdatePacket memSize
  | .export => parseExportPacket memSize
  | .query => parseQueryPacket memSize

/-! ## §5. What the parsers are made of. -/

/-- A property of parsers that their parts pass on. -/
structure ParserRule (P : ∀ {ε α : Type}, Parse ε α → Prop) : Prop where
  pure : ∀ {ε α : Type} (a : α), P (Prog.pure a : Parse ε α)
  fail : ∀ {ε α : Type} (e : ε), P (Prog.fail e : Parse ε α)
  bind : ∀ {ε α β : Type} {m : Parse ε α} {f : α → Parse ε β},
    P m → (∀ a, P (f a)) → P (m >>= f)
  mapFail : ∀ {ε ε' α : Type} {m : Parse ε α} (g : ε → ε'), P m → P (m.mapFail g)
  called : ∀ {ε α : Type} {m : Parse ε α} (c : Component), P m → P (called c m)
  readWidth : ∀ {ε : Type} {width : Nat}, width ≤ 8 → P (readWidth width : Parse ε Nat)
  cstring : ∀ {ε : Type}, P (cstring : Parse ε (Option Bytes))
  alloc : ∀ {ε : Type} (size : Nat), P (alloc size : Parse ε Unit)
  border : P (border : Parse Unit Bool)

namespace ParserRule

variable {P : ∀ {ε α : Type}, Parse ε α → Prop} (h : ParserRule P) {memSize : Nat} {ε α : Type}
include h

theorem readInt8 : P (Protocol.readInt8 : Parse ε Nat) := h.readWidth (by decide)

theorem readInt32 : P (Protocol.readInt32 : Parse ε Nat) := h.readWidth (by decide)

theorem collect {m : Parse ε α} (hm : P m) (n : Nat) : P (Prog.collect m n) := by
  induction n with
  | zero => exact h.pure []
  | succ n ih =>
    exact h.bind (h.mapFail _ hm) fun a => h.mapFail _ (h.bind ih fun as => h.pure (a :: as))

/-- The rule for values asks for what only they use: the label in front, the bytes of a
string, the copy of a number, and the test of the length. -/
theorem value (hmark : P (Protocol.mark .dynValue : Parse ResultCode Unit))
    (hbytes : ∀ len, P (Protocol.bytes len : Parse ResultCode (Option Bytes)))
    (hcopy : ∀ temp len, P (Protocol.copy temp len : Parse ResultCode Bytes))
    (hexceeds : ∀ {len : Nat} {e : ResultCode} {m : Parse ResultCode DynValue}, P m →
      P (Protocol.exceeds len >>= fun tooLong => if tooLong then .fail e else m)) :
    P (readDynValue memSize) := by
  refine h.bind hmark fun _ => h.bind h.readInt8 fun type => ?_
  split
  · exact h.pure _
  refine h.bind h.readInt32 fun len => hexceeds ?_
  split
  · exact h.fail _
  split
  · exact h.pure _
  unfold readTyped
  split
  · exact h.fail _
  split
  · next hwidth =>
      exact h.bind (h.readWidth (fixedWidth_le hwidth)) fun v =>
        h.bind (hcopy _ _) fun _ => h.pure _
  · split
    · exact h.bind (hbytes _) fun _ => h.pure _
    · exact h.fail _

/-- A condition without the label before it. -/
theorem item {ignored : Bool} (hvalue : P (parseValue memSize ignored)) : P (do
    let type ← Protocol.readInt8
    if type = conditionExp then do
      let fieldName ← Protocol.cstring
      let comparator ← Protocol.readInt8
      let valueNum ← Protocol.readInt32
      Protocol.alloc (valueNum * sizeofLowData)
      let values ← (Prog.collect (parseValue memSize ignored) valueNum).mapFail
        fun _ => ResultCode.errorPacketFormat
      Prog.pure ⟨type, fieldName, comparator, values⟩
    else if type = logicAnd ∨ type = logicOr then Prog.pure ⟨type, none, 0, []⟩
    else Prog.fail .errorPacketFormat : Parse ResultCode Condition) := by
  refine h.bind h.readInt8 fun type => ?_
  split
  · refine h.bind h.cstring fun fieldName => h.bind h.readInt8 fun comparator => ?_
    refine h.bind h.readInt32 fun valueNum => h.bind (h.alloc _) fun _ => ?_
    exact h.bind (h.mapFail _ (h.collect hvalue valueNum)) fun values => h.pure _
  · split
    · exact h.pure _
    · exact h.fail _

theorem parseCondition {ignored : Bool} (hitem : P (parseConditionItem memSize ignored)) :
    P (parseCondition memSize ignored) := by
  refine h.bind h.readInt32 fun n => ?_
  split
  · exact h.pure _
  · exact h.bind (h.alloc _) fun _ =>
      h.bind (h.mapFail _ (h.collect hitem n)) fun conditions => h.pure _

theorem parseHintArray : P parseHintArray := by
  refine h.bind h.readInt32 fun n => ?_
  split
  · exact h.fail _
  · exact h.bind (h.alloc _) fun _ =>
      h.bind (h.mapFail _ (h.collect (h.readWidth (by decide)) n)) fun hints => h.pure _

theorem parseSelectField
    (hrange : P ((Protocol.called .conditions (Protocol.parseCondition memSize true)).attempt :
      Parse Unit _)) : P (parseSelectField memSize) := by
  refine h.bind h.readInt8 fun type => ?_
  split
  · exact h.bind h.cstring fun _ => h.bind h.cstring fun _ => h.pure _
  · split
    · refine h.bind h.readInt8 fun code => h.bind h.cstring fun _ => h.bind h.cstring fun _ => ?_
      refine h.bind h.cstring fun _ => ?_
      split
      · exact h.bind hrange fun _ => h.pure _
      · exact h.pure _
    · split
      · exact h.pure _
      · exact h.fail _

/-- The arrays that are left out when they have no elements. -/
theorem array {m : Parse ε α} {size : Nat} (hm : P m) : P (do
    let n ← Protocol.readInt32
    if n = 0 then .pure []
    else do
      Protocol.alloc (n * size)
      orNull (Prog.collect m n)) := by
  refine h.bind h.readInt32 fun n => ?_
  split
  · exact h.pure _
  · exact h.bind (h.alloc _) fun _ => h.mapFail _ (h.collect hm n)

theorem finish (packet : Packet) : P (finish packet) := by
  refine h.bind h.border fun crossed => ?_
  split
  · exact h.fail _
  · exact h.pure _

/-- **The rule for packets**: besides the parts, it asks for the values, the conditions and
the two components whose return code is ignored. -/
theorem parsePacket (hvalue : P (readDynValue memSize))
    (hitem : P (parseConditionItem memSize false))
    (hrange : P ((Protocol.called .conditions (Protocol.parseCondition memSize true)).attempt :
      Parse Unit _))
    (hhints : P uncheckedHints) (kind : PacketKind) : P (parsePacket memSize kind) := by
  have hcond : P (checkedCondition memSize) := h.mapFail _ (h.called _ (h.parseCondition hitem))
  have horder : P parseOrderField :=
    h.array (h.bind h.cstring fun _ => h.bind h.readInt8 fun _ => h.pure _)
  match kind with
  | .insert =>
    refine h.bind h.cstring fun tableName => h.bind h.readInt32 fun columnNum => ?_
    split
    · exact h.fail _
    · refine h.bind (h.alloc _) fun _ => h.bind (h.mapFail _ (h.collect ?_ _)) fun _ => h.finish _
      exact h.bind h.cstring fun _ => h.bind (h.called _ hvalue) fun _ => h.pure _
  | .delete =>
    refine h.bind h.cstring fun _ => h.bind hhints fun _ => ?_
    exact h.bind hcond fun _ => h.bind hcond fun _ => h.finish _
  | .update =>
    refine h.bind h.cstring fun _ => h.bind h.cstring fun _ => ?_
    refine h.bind (h.mapFail _ (h.called _ hvalue)) fun _ => h.bind hhints fun _ => ?_
    exact h.bind hcond fun _ => h.bind hcond fun _ => h.finish _
  | .export =>
    refine h.bind h.cstring fun _ => h.bind h.cstring fun _ => h.bind hhints fun _ => ?_
    refine h.bind hcond fun _ => h.bind hcond fun _ => ?_
    exact h.bind (h.readWidth (by decide)) fun _ => h.finish _
  | .query =>
    refine h.bind (h.readWidth (by decide)) fun _ => h.bind h.cstring fun _ => ?_
    refine h.bind (h.mapFail _ (h.called _ h.parseHintArray)) fun _ => ?_
    refine h.bind (h.called _ (h.bind h.readInt32 fun n => h.bind (h.alloc _) fun _ =>
      h.mapFail _ (h.collect (h.parseSelectField hrange) n))) fun _ => ?_
    refine h.bind hcond fun _ => h.bind hcond fun _ => h.bind (h.array h.cstring) fun _ => ?_
    refine h.bind horder fun _ => h.bind h.readInt32 fun _ => h.bind horder fun _ => ?_
    exact h.bind h.readInt32 fun _ => h.finish _

end ParserRule

/-! ## §6. Lengths that lead outside. -/

/-- The value at the position is not of a fixed-width type with a longer length field,
unless `read_dyn_value` gives up on the length. -/
def ValueLength (memSize : Nat) (b : DataBuffer) : Prop :=
  b.rpos + 5 ≤ b.dataLen →
    let len := beNat ((b.peek 5).drop 1)
    ∀ width ∈ (FieldType.ofByte? (UInt8.ofNat (beNat (b.peek 1)))).bind fixedWidth,
      len ≤ width ∨ b.dataLen < b.rpos + 5 + len ∨ memSize < len

/-- The lengths that stand in the packet where a string or a value is read, and
positions near 4 GiB.  Nothing is asked of `read_bytes`, whose length is tested before. -/
def SoundLengths (memSize : Nat) (op : ReadOp) (b : DataBuffer) : Prop :=
  match op with
  | .int width => b.rpos + width < 2 ^ 32
  | .cstring => b.rpos + 4 < 2 ^ 32 ∧ StringLength memSize b
  | .mark .dynValue => ValueLength memSize b
  | _ => True

instance (memSize : Nat) (b : DataBuffer) : Decidable (ValueLength memSize b) := by
  unfold ValueLength
  infer_instance

instance (memSize : Nat) (b : DataBuffer) : (op : ReadOp) → Decidable (SoundLengths memSize op b)
  | .int width => inferInstanceAs (Decidable (b.rpos + width < 2 ^ 32))
  | .cstring => inferInstanceAs (Decidable (b.rpos + 4 < 2 ^ 32 ∧ StringLength memSize b))
  | .mark .dynValue => inferInstanceAs (Decidable (ValueLength memSize b))
  | .mark .hints | .mark .condition | .mark .value => isTrue trivial
  | .bytes _ | .exceeds _ | .copy _ _ | .alloc _ | .border | .returned _ _ => isTrue trivial

/-- The reads of a parser stay inside exactly if the lengths it meets are sound. -/
def Alike {ε α : Type} (memSize : Nat) (m : Parse ε α) : Prop :=
  ∀ ⦃b : DataBuffer⦄, b.Valid →
    (m.Each (readStep memSize) (ReadsInside memSize) b ↔
      m.Each (readStep memSize) (SoundLengths memSize) b)

section Alike

variable {memSize : Nat} {ε ε' α β : Type} {m : Parse ε α} {f : α → Parse ε β}

namespace Alike

theorem pure (a : α) : Alike memSize (Prog.pure a : Parse ε α) := fun _ _ => Iff.rfl

theorem fail (e : ε) : Alike memSize (Prog.fail e : Parse ε α) := fun _ _ => Iff.rfl

theorem bind (hm : Alike memSize m) (hf : ∀ a, Alike memSize (f a)) : Alike memSize (m >>= f) := by
  intro b hb
  refine Prog.each_bind.trans ((and_congr (hm hb) ?_).trans Prog.each_bind.symm)
  refine forall_congr' fun a => forall_congr' fun b' => forall_congr' fun hrun => ?_
  exact hf a (Prog.run_inv DataBuffer.Valid readStep_valid hb hrun)

theorem mapFail (g : ε → ε') (hm : Alike memSize m) : Alike memSize (m.mapFail g) :=
  fun _ hb => Prog.each_mapFail.trans ((hm hb).trans Prog.each_mapFail.symm)

theorem attempt (hm : Alike memSize m) : Alike memSize (m.attempt : Parse ε' (Except ε α)) :=
  fun _ hb => Prog.each_attempt.trans ((hm hb).trans Prog.each_attempt.symm)

theorem ask {op : ReadOp}
    (h : ∀ ⦃b : DataBuffer⦄, b.Valid → (ReadsInside memSize op b ↔ SoundLengths memSize op b)) :
    Alike memSize (Prog.ask op : Parse ε op.Res) := by
  intro b hb
  refine (Prog.each_step _).trans ((and_congr (h hb) ?_).trans (Prog.each_step _).symm)
  split <;> exact Iff.rfl

/-- An operation that does not move the position. -/
theorem still {op : ReadOp} (hin : ∀ ⦃b : DataBuffer⦄, b.Valid → ReadsInside memSize op b)
    (hsound : ∀ b, SoundLengths memSize op b) : Alike memSize (Prog.ask op : Parse ε op.Res) :=
  ask fun b hb => iff_of_true (hin hb) (hsound b)

theorem readWidth {width : Nat} (h : width ≤ 8) :
    Alike memSize (Protocol.readWidth width : Parse ε Nat) :=
  ask fun _ hb => (readChecked_stays_iff hb.1 hb.2).trans
    (rightCheck_iff_lt hb.1 hb.2 (by omega))

theorem cstring : Alike memSize (Protocol.cstring : Parse ε (Option Bytes)) :=
  ask fun _ hb => readCstring_stays_iff hb.1 hb.2

theorem alloc (size : Nat) : Alike memSize (Protocol.alloc size : Parse ε Unit) := by
  refine still (fun b hb => ?_) fun _ => trivial
  show Stays b (if size ≤ memSize then _ else _)
  split
  · exact ⟨le_rfl, hb.2⟩
  · rfl

theorem mark {k : Mark} (h : k ≠ .dynValue) : Alike memSize (Protocol.mark k : Parse ε Unit) := by
  refine still (fun b hb => ⟨le_rfl, hb.2⟩) fun b => ?_
  cases k with
  | dynValue => exact absurd rfl h
  | _ => trivial

theorem called (c : Component) (hm : Alike memSize m) : Alike memSize (Protocol.called c m) := by
  refine bind (attempt hm) fun r => bind (still (fun b hb => ⟨le_rfl, hb.2⟩) fun _ => trivial) ?_
  intro _
  cases r with
  | ok a => exact pure a
  | error e => exact fail e

theorem marked {k : Mark} {ignored : Bool} (h : k ≠ .dynValue) (hm : Alike memSize m) :
    Alike memSize (do
      if ignored then Protocol.mark k
      m) := by
  cases ignored with
  | false => exact hm
  | true => exact bind (mark h) fun _ => hm

variable (memSize) in
theorem rule : ParserRule fun m => Alike memSize m where
  pure := pure
  fail := fail
  bind := bind
  mapFail := mapFail
  called := called
  readWidth := readWidth
  cstring := @cstring memSize
  alloc := alloc
  border := still (fun _ hb => ⟨le_rfl, hb.2⟩) fun _ => trivial

end Alike

variable {b : DataBuffer}

/-- A number is read, or the run goes on with 0 behind the end. -/
theorem each_readWidth {P : ReadOp → DataBuffer → Prop} {width : Nat} {f : Nat → Parse ε α}
    (hb : b.Valid) (hP : P (.int width) b ↔ b.rpos + width < 2 ^ 32) :
    (Protocol.readWidth width >>= f).Each (readStep memSize) P b ↔
      b.rpos + width < 2 ^ 32 ∧
        if b.rpos + width ≤ b.dataLen then
          (f (beNat (b.peek width))).Each (readStep memSize) P { b with rpos := b.rpos + width }
        else (f 0).Each (readStep memSize) P b.cross := by
  have hlen := hb.1
  by_cases hlt : b.rpos + width < 2 ^ 32
  · have hsum := add32_of_lt hlt
    by_cases hin : b.rpos + width ≤ b.dataLen
    · have hstep : readStep memSize (.int width) b =
          .ok (beNat (b.peek width), { b with rpos := b.rpos + width }) := by
        show readChecked width 0 beNat b = _
        rw [readChecked, hsum, if_neg (not_lt.mpr hin), if_pos hin]
        rfl
      rw [if_pos hin]
      exact (Prog.each_step_ok hstep).trans (and_congr hP Iff.rfl)
    · have hstep : readStep memSize (.int width) b = .ok ((0 : Nat), b.cross) := by
        show readChecked width 0 beNat b = _
        rw [readChecked, hsum, if_pos (not_le.mp hin)]
        rfl
      rw [if_neg hin]
      exact (Prog.each_step_ok hstep).trans (and_congr hP Iff.rfl)
  · refine iff_of_false (fun h => hlt (hP.mp ?_)) fun h => hlt h.1
    exact ((Prog.each_step _).mp h).1

/-- The test of a length against the rest of the packet. -/
theorem each_exceeds {P : ReadOp → DataBuffer → Prop} {len : Nat} {e : ε}
    (hP : P (.exceeds len) b) :
    (exceeds len >>= fun tooLong => if tooLong then .fail e else m).Each (readStep memSize) P b ↔
      (b.rpos + len ≤ b.dataLen ∨ len = 0 → m.Each (readStep memSize) P b) := by
  have hstep : readStep memSize (.exceeds len) b = .ok (decide (b.dataLen - b.rpos < len), b) := rfl
  refine (Prog.each_step_ok hstep).trans ((and_iff_right hP).trans ?_)
  show (if decide (b.dataLen - b.rpos < len) = true then Prog.fail e else m).Each _ P b ↔ _
  by_cases hlong : b.dataLen - b.rpos < len
  · rw [if_pos (decide_eq_true hlong)]
    exact iff_of_true trivial fun h => absurd h (by omega)
  · rw [if_neg (by simpa using hlong)]
    exact ⟨fun h _ => h, fun h => h (by omega)⟩

theorem readsInside_int {width : Nat} (hb : b.Valid) (h : width ≤ 8) :
    ReadsInside memSize (.int width) b ↔ b.rpos + width < 2 ^ 32 :=
  (readChecked_stays_iff hb.1 hb.2).trans (rightCheck_iff_lt hb.1 hb.2 (by omega))

/-- The `switch` of `read_dyn_value` on a length that is within the packet: the copy out of
the local variable stays inside if the length is not above the type's width. -/
theorem each_readTyped {type len : Nat} (hb : b.Valid) (hin : b.rpos + len ≤ b.dataLen) :
    (readTyped type len).Each (readStep memSize) (ReadsInside memSize) b ↔
      (∀ width ∈ (FieldType.ofByte? (UInt8.ofNat type)).bind fixedWidth, len ≤ width) ∧
        (readTyped type len).Each (readStep memSize) (SoundLengths memSize) b := by
  have hlen := hb.1
  unfold readTyped
  cases FieldType.ofByte? (UInt8.ofNat type) with
  | none => exact ⟨fun _ => ⟨fun w hw => absurd hw (by simp), trivial⟩, fun _ => trivial⟩
  | some t =>
    simp only [Option.bind_some]
    cases hwidth : fixedWidth t with
    | none =>
      refine ⟨fun h => ⟨fun w hw => absurd hw (by simp), ?_⟩, fun _ => ?_⟩ <;> simp only <;> split
      · exact (Prog.each_step _).mpr ⟨trivial, by split <;> trivial⟩
      · trivial
      · refine (Prog.each_step _).mpr ⟨?_, by split <;> trivial⟩
        exact (readChecked_stays_iff hb.1 hb.2).mpr (rightCheck_of_le hb.1 hin)
      · trivial
    | some width =>
      have hle := fixedWidth_le hwidth
      -- the local variable has the bytes of the type
      have hcopy : ∀ (P : ReadOp → DataBuffer → Prop) (v : Nat) (c : DataBuffer),
          (copy (leBytes width v) len >>= fun data =>
            (Prog.pure ⟨type, data⟩ : Parse ResultCode DynValue)).Each (readStep memSize) P c ↔
            P (.copy (leBytes width v) len) c := by
        intro P v c
        refine (Prog.each_step _).trans (and_iff_left ?_)
        split <;> trivial
      have hinside : ∀ (v : Nat) ⦃c : DataBuffer⦄, c.Valid →
          (ReadsInside memSize (.copy (leBytes width v) len) c ↔ len ≤ width) := by
        intro v c hc
        show Stays c (if len ≤ (leBytes width v).length then _ else _) ↔ _
        rw [leBytes_length]
        split
        · next h => exact iff_of_true ⟨le_rfl, hc.2⟩ h
        · next h => exact iff_of_false (fun hs => by cases hs) h
      simp only [Option.mem_def, Option.some.injEq, forall_eq']
      rw [each_readWidth hb (readsInside_int hb hle), each_readWidth hb Iff.rfl]
      split
      · next hw =>
          have hval : DataBuffer.Valid { b with rpos := b.rpos + width } := ⟨hb.1, hw⟩
          rw [hcopy, hcopy, hinside _ hval]
          exact ⟨fun h => ⟨h.2, h.1, trivial⟩, fun h => ⟨h.2.1, h.1⟩⟩
      · next hw =>
          have hval : DataBuffer.Valid b.cross := hb
          rw [hcopy, hcopy, hinside _ hval]
          exact ⟨fun h => ⟨h.2, h.1, trivial⟩, fun h => ⟨h.2.1, h.1⟩⟩

/-- `read_dyn_value` behind its type and length. -/
theorem each_sized {type len : Nat} (hb : b.Valid) :
    (exceeds len >>= fun tooLong =>
      if tooLong then .fail .errorPacketFormat
      else if memSize < len then .fail .errorNotEnoughMemory
      else if len = 0 then .pure ⟨type, []⟩
      else readTyped type len : Parse ResultCode DynValue).Each (readStep memSize)
        (ReadsInside memSize) b ↔
      (∀ width ∈ (FieldType.ofByte? (UInt8.ofNat type)).bind fixedWidth,
        len ≤ width ∨ b.dataLen < b.rpos + len ∨ memSize < len) ∧
      (exceeds len >>= fun tooLong =>
        if tooLong then .fail .errorPacketFormat
        else if memSize < len then .fail .errorNotEnoughMemory
        else if len = 0 then .pure ⟨type, []⟩
        else readTyped type len : Parse ResultCode DynValue).Each (readStep memSize)
          (SoundLengths memSize) b := by
  rw [each_exceeds (show ReadsInside memSize _ _ from ⟨le_rfl, hb.2⟩), each_exceeds trivial]
  by_cases hmem : memSize < len
  · rw [if_pos hmem]
    exact iff_of_true (fun _ => trivial) ⟨fun _ _ => .inr (.inr hmem), fun _ => trivial⟩
  rw [if_neg hmem]
  by_cases hzero : len = 0
  · rw [if_pos hzero]
    exact iff_of_true (fun _ => trivial) ⟨fun _ _ => .inl (by omega), fun _ => trivial⟩
  rw [if_neg hzero]
  by_cases hin : b.rpos + len ≤ b.dataLen
  · rw [imp_iff_right (.inl hin), imp_iff_right (.inl hin), each_readTyped hb hin]
    refine and_congr_left fun _ => forall_congr' fun width => imp_congr_right fun _ => ?_
    omega
  · have hout : ¬ (b.rpos + len ≤ b.dataLen ∨ len = 0) := by omega
    exact iff_of_true (fun h => absurd h hout)
      ⟨fun _ _ => .inr (.inl (not_le.mp hin)), fun h => absurd h hout⟩

/-- A packet's value stays inside exactly if its length field is sound. -/
theorem Alike.readDynValue : Alike memSize (Protocol.readDynValue memSize) := by
  intro b hb
  have hmark : readStep memSize (.mark .dynValue) b = .ok ((), b) := rfl
  refine (Prog.each_step_ok hmark).trans (Iff.trans ?_ (Prog.each_step_ok hmark).symm)
  refine (and_iff_right (show ReadsInside memSize (.mark .dynValue) b from ⟨le_rfl, hb.2⟩)).trans ?_
  refine (each_readWidth hb (readsInside_int hb (by decide))).trans
    (Iff.trans ?_ (and_congr_right fun _ => (each_readWidth hb Iff.rfl).symm))
  show _ ↔ ValueLength memSize b ∧ _
  have hout : ¬ b.rpos + 5 ≤ b.dataLen → ValueLength memSize b := fun h h' => absurd h' h
  by_cases hin : b.rpos + 1 ≤ b.dataLen
  swap
  · -- the type is taken to be `NULL`
    rw [if_neg hin, if_neg hin]
    exact (and_iff_right (hout (by omega))).symm
  rw [if_pos hin, if_pos hin]
  by_cases hnull : beNat (b.peek 1) = FieldType.null.toByte.toNat
  · rw [if_pos hnull]
    refine (and_iff_right ?_).symm
    intro _ len width hwidth
    rw [hnull] at hwidth
    exact absurd hwidth (by decide +revert)
  rw [if_neg hnull, and_left_comm]
  refine and_congr_right fun _ => ?_
  have hb₁ : DataBuffer.Valid { b with rpos := b.rpos + 1 } := ⟨hb.1, hin⟩
  refine (each_readWidth hb₁ (readsInside_int hb₁ (by decide))).trans
    (Iff.trans ?_ (and_congr_right fun _ => (each_readWidth hb₁ Iff.rfl).symm))
  rw [and_left_comm]
  refine and_congr_right fun _ => ?_
  by_cases hin' : b.rpos + 1 + 4 ≤ b.dataLen
  · rw [b.peek_length]
    refine (iff_of_eq (if_pos hin')).trans (Iff.trans (each_sized ⟨hb.1, hin'⟩)
      (and_congr ?_ (iff_of_eq (if_pos hin').symm)))
    exact ⟨fun h _ => h, fun h => h hin'⟩
  · -- the length is taken to be 0
    refine (iff_of_eq (if_neg hin')).trans (Iff.trans (each_sized hb₁)
      (and_congr ?_ (iff_of_eq (if_neg hin').symm)))
    exact iff_of_true (fun _ _ => .inl (Nat.zero_le _)) (hout hin')

/-! ## §7. Reads stay inside the packet. -/

theorem alike_parseConditionItem (ignored : Bool) :
    Alike memSize (parseConditionItem memSize ignored) :=
  .marked (by decide) ((Alike.rule memSize).item (.marked (by decide) (.called _ .readDynValue)))

theorem alike_parsePacket (kind : PacketKind) : Alike memSize (parsePacket memSize kind) := by
  have hrule := Alike.rule memSize
  refine hrule.parsePacket .readDynValue (alike_parseConditionItem false) ?_ ?_ kind
  · exact .attempt (.called _ (hrule.parseCondition (alike_parseConditionItem true)))
  · exact .bind (.attempt (.bind (.mark (by decide)) fun _ => .called _ hrule.parseHintArray))
      fun _ => .pure _

end Alike

/-- **READS STAY INSIDE THE PACKET**: from any position inside a packet of less
than 2^32 bytes, all reads of a parser are inside the packet and its position
stays inside and does not move backwards, exactly if the lengths it meets are sound: no
string has the length -1, no value of a fixed-width type has a longer length that is within
the packet and the pool, and neither a number nor a string reaches beyond 4 GiB. -/
theorem packet_reads_inside (memSize : Nat) (kind : PacketKind) (b : DataBuffer)
    (hlen : b.dataLen < 2 ^ 32) (hpos : b.rpos ≤ b.dataLen) :
    (parsePacket memSize kind).Each (readStep memSize) (ReadsInside memSize) b ↔
      (parsePacket memSize kind).Each (readStep memSize) (SoundLengths memSize) b :=
  alike_parsePacket kind ⟨hlen, hpos⟩

/-- An insert of the value 7 into column `a` of table `t`. -/
def smallInsert : DataBuffer :=
  ⟨[0, 0, 0, 1, 116, 0, 0, 0, 1, 0, 0, 0, 1, 97, 1, 0, 0, 0, 1, 7], 0, false⟩

theorem packet_reads_inside_small_insert :
    (parsePacket mbSize .insert).Each (readStep mbSize) (SoundLengths mbSize) smallInsert ∧
      (parsePacket mbSize .insert).Each (readStep mbSize) (ReadsInside mbSize) smallInsert := by
  have hsound : (parsePacket mbSize .insert).Each (readStep mbSize) (SoundLengths mbSize)
      smallInsert := by
    decide +kernel
  refine ⟨hsound, ?_⟩
  exact (packet_reads_inside mbSize .insert smallInsert (by decide) (by decide)).mpr hsound

/-- The length of the table name is -1: the 32-bit sum with the position is 3, so that
the check passes, no byte is allocated, and `memcpy` is called for 2^64 - 1 bytes. -/
theorem negative_string_length_read :
    ¬ (parsePacket mbSize .insert).Each (readStep mbSize) (ReadsInside mbSize)
      ⟨[255, 255, 255, 255, 0, 0, 0, 0], 0, false⟩ := by
  decide +kernel

end Mile.Protocol
