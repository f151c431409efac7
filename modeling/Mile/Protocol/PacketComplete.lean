/-
  Mile.Protocol.PacketComplete
  ────────────────────────────
  **TRUNCATED AND MALFORMED PACKETS** (`protocol/packet.cpp`).

  An accepted packet is one all of whose components were parsed, except for what is not checked:
  the hint arrays of delete, update and export packets and the range expressions of select fields.
-/
import Mile.Protocol.Packet

namespace Mile.Protocol

open Lib Common List

section

variable (memSize : Nat)

/-! ## §1. Clean steps. -/

/-- `read_dyn_value` knows the type. -/
def knownType (type : Nat) : Bool :=
  match FieldType.ofByte? (UInt8.ofNat type) with
  | some t => (fixedWidth t).isSome || decide (t = .varchar ∨ t = .string)
  | none => false

/-- What stands at a label.  A cut-off component is seen by `array_border`. -/
def CleanMark (b : DataBuffer) : Mark → Prop
  | .hints => b.rpos + 4 ≤ b.dataLen → beNat (b.peek 4) = 4
  | .condition =>
    b.rpos + 1 ≤ b.dataLen →
      beNat (b.peek 1) = conditionExp ∨ beNat (b.peek 1) = logicAnd ∨ beNat (b.peek 1) = logicOr
  | .value =>
    b.rpos + 5 ≤ b.dataLen →
      let type := beNat (b.peek 1)
      let len := beNat ((b.peek 5).drop 1)
      type = 0 ∨
        (b.rpos + 5 + len ≤ b.dataLen ∧ len ≤ memSize ∧ (len = 0 ∨ knownType type = true))
  | .dynValue => True

/-- An operation that does not fault; at a label, nothing has been read past
the end or the component is well formed. -/
def CleanParse (op : ReadOp) (b : DataBuffer) : Prop :=
  CleanRead op b ∧
    match op with
    | .cstring =>
      b.rpos + 4 ≤ b.dataLen → b.rpos + 4 + beNat (b.peek 4) ≤ b.dataLen →
        beNat (b.peek 4) < memSize
    | .alloc size => size ≤ memSize
    | .mark m => b.arrayBorder = true ∨ CleanMark memSize b m
    | _ => True

def Succeeded (op : ReadOp) (_ : DataBuffer) : Prop :=
  match op with
  | .returned _ ok => ok = true
  | _ => True

instance (b : DataBuffer) (m : Mark) : Decidable (CleanMark memSize b m) := by
  cases m <;> unfold CleanMark <;> infer_instance

instance (op : ReadOp) (b : DataBuffer) : Decidable (CleanParse memSize op b) := by
  unfold CleanParse
  have : Decidable (match op with
    | .cstring =>
      b.rpos + 4 ≤ b.dataLen → b.rpos + 4 + beNat (b.peek 4) ≤ b.dataLen →
        beNat (b.peek 4) < memSize
    | .alloc size => size ≤ memSize
    | .mark m => b.arrayBorder = true ∨ CleanMark memSize b m
    | _ => True) := by
    split <;> infer_instance
  infer_instance

instance (op : ReadOp) (b : DataBuffer) : Decidable (Succeeded op b) := by
  unfold Succeeded
  split <;> infer_instance

variable {b : DataBuffer}

/-- A read whose bound check is right does not fault. -/
theorem RightCheck.ok {α : Type} {n : Nat} {miss : α} {value : Bytes → α}
    (h : RightCheck b.dataLen b.rpos n) : ∃ r, readChecked n miss value b = .ok r := by
  unfold readChecked
  by_cases hcross : b.dataLen < add32 b.rpos n
  · exact ⟨_, if_pos hcross⟩
  · rw [if_neg hcross, if_pos (h.le hcross).2]
    exact ⟨_, rfl⟩

/-- The two outcomes of reading a number in a valid buffer. -/
theorem readInt_cases {width v : Nat} {b' : DataBuffer} (hb : b.Valid)
    (h : readInt width b = .ok (v, b')) :
    b'.arrayBorder = true ∨
      (b.rpos + width ≤ b.dataLen ∧ v = beNat (b.peek width) ∧
        b' = { b with rpos := b.rpos + width }) := by
  have hlen := hb.1
  unfold readInt readChecked at h
  split_ifs at h with hcross hin <;> cases h
  · exact .inl rfl
  · refine .inr ⟨hin, rfl, ?_⟩
    rw [add32_of_lt (by omega)]

theorem readCstringBody_ok {len : Nat} (hcheck : RightCheck b.dataLen b.rpos len)
    (hneg : add32 b.rpos len ≤ b.dataLen → len < 2 ^ 31)
    (hroom : b.rpos + len ≤ b.dataLen → len < memSize) :
    ∃ r, readCstringBody memSize len b = .ok r := by
  unfold readCstringBody
  by_cases hcross : b.dataLen < add32 b.rpos len
  · exact ⟨_, if_pos hcross⟩
  have hin := (hcheck.le hcross).2
  have hlt := hneg (not_lt.mp hcross)
  have hfits : ¬ refused memSize len = true := by
    have := hroom hin
    simp only [refused, if_pos hlt, decide_eq_true_eq]
    omega
  rw [if_neg hcross, if_neg hfits, if_neg (by omega)]
  exact ⟨_, rfl⟩

theorem readCstring_ok (hb : b.Valid) (h : CleanParse memSize .cstring b) :
    ∃ r, readCstring memSize b = .ok r := by
  have hlen := hb.1
  obtain ⟨⟨hfour, hbody⟩, hroom⟩ := h
  unfold readCstring
  by_cases hcross : b.dataLen < add32 b.rpos 4
  · exact ⟨_, if_pos hcross⟩
  have hin := (hfour.le hcross).2
  rw [if_neg hcross, readInt_inside hlen hin]
  exact readCstringBody_ok memSize (b := { b with rpos := b.rpos + 4 }) (hbody hin).1 (hbody hin).2
    (hroom hin)

theorem CleanParse.ok {op : ReadOp} (hb : b.Valid) (h : CleanParse memSize op b) :
    ∃ r, readStep memSize op b = .ok r := by
  cases op with
  | int width | bytes len => exact RightCheck.ok h.1
  | cstring => exact readCstring_ok memSize hb h
  | copy temp len => exact ⟨_, if_pos h.1⟩
  | alloc size => exact ⟨_, if_pos h.2⟩
  | exceeds len | border | mark m | returned c ok => exact ⟨_, rfl⟩

/-! ## §2. A run on more bytes. -/

def DataBuffer.extend (b : DataBuffer) (more : Bytes) : DataBuffer :=
  { b with data := b.data ++ more }

section Extend

variable {b b' : DataBuffer} (more : Bytes)

theorem extend_dataLen : (b.extend more).dataLen = b.dataLen + more.length := length_append

theorem extend_peek {k : Nat} (h : b.rpos + k ≤ b.dataLen) : (b.extend more).peek k = b.peek k := by
  have hlen : b.dataLen = b.data.length := rfl
  simp only [DataBuffer.peek, DataBuffer.extend]
  rw [drop_append_of_le_length (by omega), take_append_of_le_length (by rw [length_drop]; omega)]

theorem extend_not_cross {n : Nat} (h : ¬ b.dataLen < add32 b.rpos n) :
    ¬ (b.extend more).dataLen < add32 (b.extend more).rpos n := by
  rw [extend_dataLen]
  exact fun hlt => h ((Nat.le_add_right _ _).trans_lt hlt)

theorem readChecked_extend {α : Type} {k : Nat} {miss v : α} {value : Bytes → α}
    (h : readChecked k miss value b = .ok (v, b')) :
    b'.arrayBorder = true ∨
      readChecked k miss value (b.extend more) = .ok (v, b'.extend more) := by
  unfold readChecked at h
  split at h
  · cases h
    exact .inl rfl
  · next hcross =>
      split at h
      · next hin =>
          have hin' : (b.extend more).rpos + k ≤ (b.extend more).dataLen := by
            rw [extend_dataLen]
            exact hin.trans (Nat.le_add_right _ _)
          cases h
          refine .inr ?_
          rw [readChecked, if_neg (extend_not_cross more hcross), if_pos hin', extend_peek more hin]
          rfl
      · cases h

/-- More bytes change nothing for a string that was there. -/
theorem readCstring_extend {v : Option Bytes} (h : readCstring memSize b = .ok (v, b')) :
    b'.arrayBorder = true ∨ readCstring memSize (b.extend more) = .ok (v, b'.extend more) := by
  unfold readCstring at h
  split at h
  · cases h
    exact .inl rfl
  · next hcross =>
      cases hint : readInt 4 b with
      | error e => simp only [hint] at h; cases h
      | ok p =>
        obtain ⟨len, b₁⟩ := p
        simp only [hint, readCstringBody] at h
        split_ifs at h with hbody hrefused hstray <;> cases h
        · exact .inl rfl
        -- the length field was read without passing the end, or the border stays
        refine (readChecked_extend more hint).imp_right fun hint' => ?_
        have hint' : readInt 4 (b.extend more) = .ok (len, b₁.extend more) := hint'
        have hstray' : ¬ (2 ^ 31 ≤ len ∨
            (b₁.extend more).dataLen < (b₁.extend more).rpos + len) := by
          rw [extend_dataLen]
          rintro (hneg | hneg)
          · exact hstray (.inl hneg)
          · exact hstray (.inr ((Nat.le_add_right _ _).trans_lt hneg))
        rw [readCstring, if_neg (extend_not_cross more hcross), hint']
        simp only [readCstringBody]
        rw [if_neg (extend_not_cross more hbody), if_neg hrefused, if_neg hstray',
          extend_peek more (by omega)]
        rfl

/-- The operations that answer the same with more bytes behind the data, and do
not tell of a component's parser. -/
def ReadOp.plain : ReadOp → Bool
  | .exceeds _ => false
  | .returned _ _ => false
  | _ => true

/-- The labels. -/
def ReadOp.isMark : ReadOp → Bool
  | .mark _ => true
  | _ => false

/-- More bytes change nothing for a read that was inside. -/
theorem readStep_extend {op : ReadOp} {v : op.Res} (hop : op.plain = true)
    (h : readStep memSize op b = .ok (v, b')) :
    b'.arrayBorder = true ∨ readStep memSize op (b.extend more) = .ok (v, b'.extend more) := by
  cases op with
  | int width | bytes len => exact readChecked_extend more h
  | cstring => exact readCstring_extend memSize more h
  | exceeds len | returned c ok => cases hop
  | copy temp len | alloc size =>
    simp only [readStep] at h ⊢
    split at h
    · next hle =>
        cases h
        exact .inr (if_pos hle)
    · cases h
  | border | mark m => cases h; exact .inr rfl

end Extend

/-! ## §3. Sound parsers. -/

abbrev runParse {ε α : Type} (m : Parse ε α) (b : DataBuffer) :
    Except Fault (Except ε α × DataBuffer) := m.run (readStep memSize) b

abbrev CleanRun {ε α : Type} (m : Parse ε α) (b : DataBuffer) : Prop :=
  m.Each (readStep memSize) (CleanParse memSize) b

abbrev AllSucceeded {ε α : Type} (m : Parse ε α) (b : DataBuffer) : Prop :=
  m.Each (readStep memSize) Succeeded b

/-- A parser is sound: when a clean run succeeds without reading past the end,
every component was parsed, and the run is the same with more bytes behind the
data. -/
def Sound {ε α : Type} (m : Parse ε α) : Prop :=
  ∀ ⦃b : DataBuffer⦄, b.Valid → CleanRun memSize m b → ∀ ⦃a b'⦄,
    runParse memSize m b = .ok (.ok a, b') → b'.arrayBorder = false →
      AllSucceeded memSize m b ∧
        ∀ more, runParse memSize m (b.extend more) = .ok (.ok a, b'.extend more)

/-- The results of a parser, when every component was parsed. -/
def Yields {ε α : Type} (m : Parse ε α) (Q : α → Prop) : Prop :=
  ∀ ⦃b a b'⦄, runParse memSize m b = .ok (.ok a, b') → AllSucceeded memSize m b → Q a

/-- A clean run of the parser does not give up, unless it reads past the end. -/
def Unfailing {ε α : Type} (m : Parse ε α) : Prop :=
  ∀ ⦃b : DataBuffer⦄, b.Valid → CleanRun memSize m b → ∀ ⦃e b'⦄,
    runParse memSize m b = .ok (.error e, b') → b'.arrayBorder = true

variable {memSize} {ε ε' α β : Type} {Q : α → Prop} {R : β → Prop} {m : Parse ε α} {b' : DataBuffer}

theorem runParse_follows {x : Except ε α} (hb : b.Valid) (h : runParse memSize m b = .ok (x, b')) :
    b'.Valid ∧ Follows b b' := by
  refine Prog.run_inv (fun c => c.Valid ∧ Follows b c) ?_ ⟨hb, .refl b⟩ h
  intro op c r c' hc hstep
  exact ⟨readStep_valid op c r c' hc.1 hstep, hc.2.trans (readStep_follows hc.1.1 hstep)⟩

theorem runParse_border {x : Except ε α} (hb : b.Valid) (h : runParse memSize m b = .ok (x, b'))
    (hborder : b'.arrayBorder = false) : b.arrayBorder = false := by
  by_contra hne
  have := (runParse_follows hb h).2.border (by simpa using hne)
  rw [hborder] at this
  cases this

theorem runParse_ask {op : ReadOp} {x : Except ε op.Res}
    (h : runParse memSize (Prog.ask op : Parse ε op.Res) b = .ok (x, b')) :
    ∃ r, readStep memSize op b = .ok (r, b') ∧ x = .ok r := by
  cases hstep : readStep memSize op b with
  | error e => cases (Prog.run_step_error hstep).symm.trans h
  | ok p =>
    cases (Prog.run_step_ok hstep).symm.trans h
    exact ⟨p.1, rfl, rfl⟩

namespace Sound

theorem pure (a : α) : Sound memSize (Prog.pure a : Parse ε α) := by
  intro b _ _ a' b' hrun _
  cases hrun
  exact ⟨trivial, fun _ => rfl⟩

theorem fail (e : ε) : Sound memSize (Prog.fail e : Parse ε α) := by
  intro b _ _ a' b' hrun _
  cases hrun

variable {m : Parse ε α} {f : α → Parse ε β}

theorem bind (hm : Sound memSize m) (hf : ∀ a, Sound memSize (f a)) :
    Sound memSize (m >>= f) := by
  intro b hb hclean c b' hrun hborder
  obtain ⟨hcm, hcf⟩ := Prog.each_bind.mp hclean
  rcases Prog.run_bind_cases hrun with ⟨e, -, habs⟩ | ⟨a, b₁, hm₁, hf₁⟩
  · cases habs
  · have hv := (runParse_follows hb hm₁).1
    obtain ⟨hall, hmore⟩ := hm hb hcm hm₁ (runParse_border hv hf₁ hborder)
    obtain ⟨hall', hmore'⟩ := hf a hv (hcf a b₁ hm₁) hf₁ hborder
    refine ⟨Prog.each_bind.mpr ⟨hall, ?_⟩,
      fun more => (Prog.run_bind_ok (hmore more)).trans (hmore' more)⟩
    intro a' b₂ hm₂
    rw [hm₁] at hm₂
    cases hm₂
    exact hall'

theorem ask {op : ReadOp} (hop : op.plain = true) :
    Sound memSize (Prog.ask op : Parse ε op.Res) := by
  intro b _ _ a b' hrun hborder
  obtain ⟨r, hstep, heq⟩ := runParse_ask hrun
  cases heq
  have hsucc : Succeeded op b := by
    cases op with
    | returned c ok => cases hop
    | _ => trivial
  refine ⟨(Prog.each_step_ok hstep).mpr ⟨hsucc, trivial⟩, fun more => ?_⟩
  rcases readStep_extend memSize more hop hstep with hb | hmore
  · rw [hborder] at hb
    cases hb
  · exact Prog.run_step_ok hmore

theorem mapFail (g : ε → ε') (hm : Sound memSize m) : Sound memSize (m.mapFail g) := by
  intro b hb hclean a b' hrun hborder
  obtain ⟨hall, hmore⟩ :=
    hm hb (Prog.each_mapFail.mp hclean) (Prog.run_mapFail_ok.mp hrun) hborder
  exact ⟨Prog.each_mapFail.mpr hall, fun more => Prog.run_mapFail_ok.mpr (hmore more)⟩

/-- The return code is ignored, but a clean run does not fail here. -/
theorem attempt (hm : Sound memSize m) (hun : Unfailing memSize m) :
    Sound memSize (m.attempt : Parse ε' (Except ε α)) := by
  intro b hb hclean x b' hrun hborder
  have hclean' := Prog.each_attempt.mp hclean
  obtain ⟨res, hrun', heq⟩ := Prog.run_attempt_inv hrun
  cases heq
  cases x with
  | error e =>
    have := hun hb hclean' hrun'
    rw [hborder] at this
    cases this
  | ok a =>
    obtain ⟨hall, hmore⟩ := hm hb hclean' hrun' hborder
    exact ⟨Prog.each_attempt.mpr hall, fun more => Prog.run_attempt_ok (hmore more)⟩

theorem exceeds {len : Nat} {e : ε} (hm : Sound memSize m) :
    Sound memSize (Protocol.exceeds len >>= fun tooLong => if tooLong then .fail e else m) := by
  intro b hb hclean a b' hrun hborder
  have hstep : ∀ c : DataBuffer,
      readStep memSize (.exceeds len) c = .ok (decide (c.dataLen - c.rpos < len), c) := fun _ => rfl
  have hrun' := (Prog.run_bind_ok (Prog.run_step_ok (hstep b))).symm.trans hrun
  have hclean' := (Prog.each_bind.mp hclean).2 _ _ (Prog.run_step_ok (hstep b))
  by_cases hlong : b.dataLen - b.rpos < len
  · simp only [hlong, decide_true, if_true] at hrun'
    cases hrun'
  simp only [hlong, decide_false, if_false, Bool.false_eq_true] at hrun' hclean'
  obtain ⟨hall, hmore⟩ := hm hb hclean' hrun' hborder
  refine ⟨Prog.each_bind.mpr ⟨(Prog.each_step_ok (hstep b)).mpr ⟨trivial, trivial⟩, ?_⟩, ?_⟩
  · intro t b₁ ht
    cases (Prog.run_step_ok (hstep b)).symm.trans ht
    simpa [hlong] using hall
  · intro more
    have hfit : ¬ (b.extend more).dataLen - (b.extend more).rpos < len := by
      rw [extend_dataLen]
      show ¬ b.dataLen + more.length - b.rpos < len
      omega
    refine (Prog.run_bind_ok (Prog.run_step_ok (hstep _))).trans ?_
    rw [decide_eq_false hfit]
    exact hmore more

/-- A label that is only there when the caller ignores the return code. -/
theorem marked {k : Mark} {ignored : Bool} (hm : Sound memSize m) :
    Sound memSize (do
      if ignored then mark k
      m) := by
  cases ignored with
  | false => exact hm
  | true => exact bind (ask rfl) fun _ => hm

end Sound

/-! ## §4. The component's own parser. -/

theorem run_called (c : Component) (m : Parse ε α) (b : DataBuffer) :
    runParse memSize (called c m) b = runParse memSize m b := by
  cases hm : runParse memSize m b with
  | error e =>
    refine Prog.run_bind_error ?_
    rw [Prog.run_attempt, show m.run (readStep memSize) b = _ from hm]
  | ok p =>
    obtain ⟨x, b'⟩ := p
    refine (Prog.run_bind_ok (Prog.run_attempt_ok hm)).trans ?_
    have hret : readStep memSize (.returned c x.isOk) b' = .ok ((), b') := rfl
    refine (Prog.run_bind_ok (Prog.run_step_ok hret)).trans ?_
    cases x <;> rfl

theorem each_called {P : ReadOp → DataBuffer → Prop} {c : Component} :
    (called c m).Each (readStep memSize) P b ↔
      m.Each (readStep memSize) P b ∧
        ∀ x b', runParse memSize m b = .ok (x, b') → P (.returned c x.isOk) b' := by
  have hret : ∀ (x : Except ε α) (b' : DataBuffer),
      readStep memSize (.returned c x.isOk) b' = .ok ((), b') := fun _ _ => rfl
  refine Prog.each_bind.trans (and_congr Prog.each_attempt ⟨?_, ?_⟩)
  · intro h x b' hm
    exact ((Prog.each_step_ok (hret x b')).mp
      (Prog.each_bind.mp (h x b' (Prog.run_attempt_ok hm))).1).1
  · intro h x b' hm
    obtain ⟨x', hm', heq⟩ := Prog.run_attempt_inv hm
    cases heq
    refine Prog.each_bind.mpr ⟨(Prog.each_step_ok (hret x b')).mpr ⟨h x b' hm', trivial⟩, ?_⟩
    intro _ b₁ _
    cases x <;> trivial

theorem Sound.called (c : Component) (hm : Sound memSize m) :
    Sound memSize (Protocol.called c m) := by
  intro b hb hclean a b' hrun hborder
  rw [run_called] at hrun
  obtain ⟨hall, hmore⟩ := hm hb (each_called.mp hclean).1 hrun hborder
  refine ⟨each_called.mpr ⟨hall, fun x b₁ hx => ?_⟩, fun more => ?_⟩
  · rw [hrun] at hx
    cases hx
    rfl
  · rw [run_called]
    exact hmore more

/-- A component that failed is told of. -/
theorem called_told {c : Component} {e : ε}
    (h : runParse memSize (called c m) b = .ok (.error e, b')) :
    ¬ AllSucceeded memSize (called c m) b := by
  intro hall
  rw [run_called] at h
  cases (each_called.mp hall).2 _ _ h

variable (memSize) in
theorem Sound.rule : ParserRule fun m => Sound memSize m where
  pure := pure
  fail := fail
  bind := bind
  mapFail := mapFail
  called := called
  readWidth _ := ask rfl
  cstring := @fun _ => ask rfl
  alloc _ := ask rfl
  border := ask rfl

namespace Yields

theorem pure {a : α} (h : Q a) : Yields memSize (Prog.pure a : Parse ε α) Q := by
  intro b a' b' hrun _
  cases hrun
  exact h

theorem fail (e : ε) : Yields memSize (Prog.fail e : Parse ε α) Q := by
  intro b a' b' hrun _
  cases hrun

variable {m : Parse ε α} {f : α → Parse ε β}

theorem bind (hm : Yields memSize m Q) (hf : ∀ a, Q a → Yields memSize (f a) R) :
    Yields memSize (m >>= f) R := by
  intro b c b' hrun hall
  obtain ⟨hall, hall'⟩ := Prog.each_bind.mp hall
  rcases Prog.run_bind_cases hrun with ⟨e, -, habs⟩ | ⟨a, b₁, hm₁, hf₁⟩
  · cases habs
  · exact hf a (hm hm₁ hall) hf₁ (hall' a b₁ hm₁)

/-- Whatever is read first. -/
theorem after (hf : ∀ a, Yields memSize (f a) R) : Yields memSize (m >>= f) R :=
  bind (Q := fun _ => True) (fun _ _ _ _ _ => trivial) fun a _ => hf a

theorem mapFail (g : ε → ε') (hm : Yields memSize m Q) : Yields memSize (m.mapFail g) Q :=
  fun _ _ _ hrun hall => hm (Prog.run_mapFail_ok.mp hrun) (Prog.each_mapFail.mp hall)

theorem called (c : Component) (hm : Yields memSize m Q) :
    Yields memSize (Protocol.called c m) Q := by
  intro b a b' hrun hall
  rw [run_called] at hrun
  exact hm hrun (each_called.mp hall).1

theorem attempt (hm : Yields memSize m Q)
    (htold : ∀ ⦃b e b'⦄, runParse memSize m b = .ok (.error e, b') → ¬ AllSucceeded memSize m b) :
    Yields memSize (m.attempt : Parse ε' (Except ε α)) fun x => ∃ a, x = .ok a ∧ Q a := by
  intro b x b' hrun hall
  have hall := Prog.each_attempt.mp hall
  obtain ⟨y, hrun, heq⟩ := Prog.run_attempt_inv hrun
  cases heq
  cases x with
  | error e => exact absurd hall (htold hrun)
  | ok a => exact ⟨a, rfl, hm hrun hall⟩

theorem collect (hm : Yields memSize m Q) (n : Nat) :
    Yields memSize (Prog.collect m n) fun as => as.length = n ∧ ∀ a ∈ as, Q a := by
  induction n with
  | zero => exact pure ⟨rfl, by simp⟩
  | succ n ih =>
    refine bind (mapFail _ hm) fun a ha => mapFail _ (bind ih fun as has => pure ?_)
    exact ⟨by rw [length_cons, has.1], forall_mem_cons.mpr ⟨ha, has.2⟩⟩

end Yields

/-! ## §5. Parsers that do not fail. -/

namespace Unfailing

theorem pure (a : α) : Unfailing memSize (Prog.pure a : Parse ε α) := by
  intro b _ _ e b' h
  cases h

variable {m : Parse ε α}

theorem bind {f : α → Parse ε β} (hm : Unfailing memSize m)
    (hf : ∀ a, Unfailing memSize (f a)) : Unfailing memSize (m >>= f) := by
  intro b hb hclean e b' hrun
  obtain ⟨hcm, hcf⟩ := Prog.each_bind.mp hclean
  rcases Prog.run_bind_cases hrun with ⟨e', hm₁, -⟩ | ⟨a, b₁, hm₁, hf₁⟩
  · exact hm hb hcm hm₁
  · exact hf a (runParse_follows hb hm₁).1 (hcf a b₁ hm₁) hf₁

theorem ask (op : ReadOp) : Unfailing memSize (Prog.ask op : Parse ε op.Res) := by
  intro b _ _ e b' hrun
  obtain ⟨_, _, heq⟩ := runParse_ask hrun
  cases heq

theorem mapFail (g : ε → ε') (hm : Unfailing memSize m) : Unfailing memSize (m.mapFail g) := by
  intro b hb hclean e b' hrun
  obtain ⟨e', hrun', -⟩ := Prog.run_mapFail_error hrun
  exact hm hb (Prog.each_mapFail.mp hclean) hrun'

theorem called (c : Component) (hm : Unfailing memSize m) :
    Unfailing memSize (Protocol.called c m) := by
  intro b hb hclean e b' hrun
  rw [run_called] at hrun
  exact hm hb (each_called.mp hclean).1 hrun

theorem collect (hm : Unfailing memSize m) (n : Nat) : Unfailing memSize (Prog.collect m n) := by
  induction n with
  | zero => exact pure []
  | succ n ih =>
    exact bind (mapFail _ hm) fun a => mapFail _ (bind ih fun as => pure (a :: as))

end Unfailing

/-! ## §6. Unchecked components. -/

theorem readWidth_cases {width : Nat} (hb : b.Valid) {x : Except ε Nat}
    (h : runParse memSize (readWidth width : Parse ε Nat) b = .ok (x, b')) :
    b'.arrayBorder = true ∨
      (b.rpos + width ≤ b.dataLen ∧ x = .ok (beNat (b.peek width)) ∧
        b' = { b with rpos := b.rpos + width }) := by
  obtain ⟨r, hstep, rfl⟩ := runParse_ask h
  exact (readInt_cases hb hstep).imp_right fun h => ⟨h.1, congrArg _ h.2.1, h.2.2⟩

section Components

theorem unfailing_marked {m : Mark} {f : Parse ε α}
    (h : ∀ ⦃b : DataBuffer⦄, b.Valid → CleanMark memSize b m → CleanRun memSize f b →
      ∀ ⦃e b'⦄, runParse memSize f b = .ok (.error e, b') → b'.arrayBorder = true) :
    Unfailing memSize (mark m >>= fun _ => f) := by
  intro b hb hclean e b' hrun
  have hstep : readStep memSize (.mark m) b = .ok ((), b) := rfl
  have hrun' := (Prog.run_bind_ok (Prog.run_step_ok hstep)).symm.trans hrun
  obtain ⟨hmark, hrest⟩ := Prog.each_bind.mp hclean
  have hmark' := ((Prog.each_step_ok hstep).mp hmark).1.2
  rcases hmark' with hborder | hgood
  · exact (runParse_follows hb hrun').2.border hborder
  · exact h hb hgood (hrest () b (Prog.run_step_ok hstep)) hrun'

theorem unfailing_readTyped {type : Nat} (len : Nat) (h : knownType type = true) :
    Unfailing memSize (readTyped type len) := by
  unfold readTyped
  unfold knownType at h
  split
  · next hnone => rw [hnone] at h; cases h
  · next t hsome =>
      simp only [hsome] at h
      split
      · exact .bind (.ask _) fun v => .bind (.ask _) fun data => .pure _
      · next hwidth =>
          rw [hwidth] at h
          rw [if_pos (by simpa using h)]
          exact .bind (.ask _) fun data => .pure _

theorem error_after_width {width : Nat} {f : Nat → Parse ε α} {b b' : DataBuffer} {e : ε}
    (hb : b.Valid) (hclean : CleanRun memSize (readWidth width >>= f) b)
    (h : runParse memSize (readWidth width >>= f) b = .ok (.error e, b')) :
    b'.arrayBorder = true ∨
      (b.rpos + width ≤ b.dataLen ∧
        CleanRun memSize (f (beNat (b.peek width))) { b with rpos := b.rpos + width } ∧
        runParse memSize (f (beNat (b.peek width))) { b with rpos := b.rpos + width } =
          .ok (.error e, b')) := by
  rcases Prog.run_bind_cases h with ⟨e', hread, -⟩ | ⟨v, b₁, hread, hrest⟩
  · rcases readWidth_cases hb hread with hborder | ⟨-, hv, -⟩
    · exact .inl hborder
    · cases hv
  · rcases readWidth_cases hb hread with hborder | ⟨hin, hv, rfl⟩
    · exact .inl ((runParse_follows (runParse_follows hb hread).1 hrest).2.border hborder)
    · cases hv
      exact .inr ⟨hin, (Prog.each_bind.mp hclean).2 _ _ hread, hrest⟩

theorem unfailing_parseValue : Unfailing memSize (parseValue memSize true) := by
  refine unfailing_marked ?_
  intro b hb hgood hclean e b' hrun
  rw [run_called] at hrun
  have hmark : readStep memSize (.mark .dynValue) b = .ok ((), b) := rfl
  have hrun := (Prog.run_step_ok hmark).symm.trans hrun
  have hclean := ((Prog.each_step_ok hmark).mp (each_called.mp hclean).1).2
  -- the type
  rcases error_after_width hb hclean hrun with hborder | ⟨hin, hclean, hrun⟩
  · exact hborder
  split at hrun
  · cases hrun
  · next htype =>
      rw [if_neg htype] at hclean
      -- the length
      have hb₁ : DataBuffer.Valid { b with rpos := b.rpos + 1 } := ⟨hb.1, hin⟩
      rcases error_after_width hb₁ hclean hrun with hborder | ⟨hin', hclean, hrun⟩
      · exact hborder
      rw [b.peek_length] at hrun hclean
      rcases hgood hin' with hnull | ⟨hfit, hpool, hknown⟩
      · exact absurd hnull htype
      · generalize beNat ((b.peek 5).drop 1) = len at *
        have hb₂ : DataBuffer.Valid { b with rpos := b.rpos + 1 + 4 } := ⟨hb.1, hin'⟩
        have hstep : readStep memSize (.exceeds len) { b with rpos := b.rpos + 1 + 4 } =
            .ok (false, { b with rpos := b.rpos + 1 + 4 }) := by
          have hlong : ¬ b.dataLen - (b.rpos + 1 + 4) < len := by omega
          show Except.ok (decide (b.dataLen - (b.rpos + 1 + 4) < len), _) = _
          rw [decide_eq_false hlong]
          rfl
        have hrun := (Prog.run_bind_ok (Prog.run_step_ok hstep)).symm.trans hrun
        have hclean := (Prog.each_bind.mp hclean).2 _ _ (Prog.run_step_ok hstep)
        simp only [Bool.false_eq_true, if_false, if_neg (Nat.not_lt.mpr hpool)] at hrun hclean
        split at hrun
        · cases hrun
        · next hzero =>
            rw [if_neg hzero] at hclean
            exact unfailing_readTyped len (hknown.resolve_left hzero) hb₂ hclean hrun

theorem unfailing_parseConditionItem : Unfailing memSize (parseConditionItem memSize true) := by
  refine unfailing_marked ?_
  intro b hb hgood hclean e b' hrun
  rcases error_after_width hb hclean hrun with hborder | ⟨hin, hclean, hrun⟩
  · exact hborder
  have hb₁ : DataBuffer.Valid { b with rpos := b.rpos + 1 } := ⟨hb.1, hin⟩
  have htype := hgood hin
  generalize beNat (b.peek 1) = type at *
  have hrest : Unfailing memSize (do
      let fieldName ← cstring
      let comparator ← readInt8
      let valueNum ← readInt32
      alloc (valueNum * sizeofLowData)
      let values ← (Prog.collect (parseValue memSize true) valueNum).mapFail
        fun _ => ResultCode.errorPacketFormat
      Prog.pure ⟨type, fieldName, comparator, values⟩ : Parse ResultCode Condition) := by
    refine .bind (.ask _) fun fieldName => .bind (.ask _) fun comparator => ?_
    refine .bind (.ask _) fun valueNum => .bind (.ask _) fun _ => ?_
    exact .bind (.mapFail _ (.collect (unfailing_parseValue) valueNum)) fun values => .pure _
  split at hrun
  · next hexp =>
      rw [if_pos hexp] at hclean
      exact hrest hb₁ hclean hrun
  · next hexp =>
      rw [if_pos (htype.resolve_left hexp)] at hrun
      cases hrun

theorem unfailing_parseCondition : Unfailing memSize (parseCondition memSize true) := by
  refine .bind (.ask _) fun n => ?_
  split
  · exact .pure _
  · refine .bind (.ask _) fun _ => ?_
    exact .bind (.mapFail _ (.collect (unfailing_parseConditionItem) n))
      fun conditions => .pure _

theorem unfailing_hints :
    Unfailing memSize (mark .hints >>= fun _ => called .hints parseHintArray) := by
  refine unfailing_marked ?_
  intro b hb hgood hclean e b' hrun
  rw [run_called] at hrun
  rcases error_after_width hb (each_called.mp hclean).1 hrun with
    hborder | ⟨hin, hclean, hrun⟩
  · exact hborder
  have hb₁ : DataBuffer.Valid { b with rpos := b.rpos + 4 } := ⟨hb.1, hin⟩
  have hn := hgood hin
  rw [if_neg (not_not.mpr hn)] at hrun hclean
  refine Unfailing.bind (.ask _) (fun _ => ?_) hb₁ hclean hrun
  exact .bind (.mapFail _ (.collect (.ask _) _)) fun hints => .pure _

/-! ## §7. The parts of a packet. -/

def HintArray.Complete (a : HintArray) : Prop := a.n = 4 ∧ a.hints.length = 4

def SelectField.Complete (f : SelectField) : Prop := ∀ r, f.rangeExp = some r → r.Complete

def Packet.Complete : Packet → Prop
  | .insert _ _ => True
  | .delete _ hiArray indexCond filterCond =>
    hiArray.Complete ∧ indexCond.Complete ∧ filterCond.Complete
  | .update _ _ _ hiArray indexCond filterCond =>
    hiArray.Complete ∧ indexCond.Complete ∧ filterCond.Complete
  | .export _ _ hiArray indexCond filterCond _ =>
    hiArray.Complete ∧ indexCond.Complete ∧ filterCond.Complete
  | .query _ _ hiArray selectField indexCond filterCond _ _ _ _ _ =>
    hiArray.Complete ∧ (∀ f ∈ selectField, f.Complete) ∧ indexCond.Complete ∧
      filterCond.Complete

theorem sound_readDynValue : Sound memSize (readDynValue memSize) :=
  (Sound.rule memSize).value (.ask rfl) (fun _ => .ask rfl) (fun _ _ => .ask rfl) .exceeds

theorem sound_parseConditionItem (ignored : Bool) :
    Sound memSize (parseConditionItem memSize ignored) :=
  .marked ((Sound.rule memSize).item (.marked (.called _ sound_readDynValue)))

theorem sound_parsePacket (kind : PacketKind) : Sound memSize (parsePacket memSize kind) := by
  have hrule := Sound.rule memSize
  refine hrule.parsePacket sound_readDynValue (sound_parseConditionItem false) ?_ ?_ kind
  · exact .attempt (.called _ (hrule.parseCondition (sound_parseConditionItem true)))
      (.called _ unfailing_parseCondition)
  · exact .bind (.attempt (.bind (.ask rfl) fun _ => .called _ hrule.parseHintArray)
      unfailing_hints) fun _ => .pure _

theorem yields_parseCondition (ignored : Bool) :
    Yields memSize (parseCondition memSize ignored) ConditionArray.Complete := by
  refine .after fun n => ?_
  split
  · exact .pure rfl
  · refine .after fun _ => .bind (.mapFail _ (.collect (Q := fun _ => True) ?_ n))
      fun conditions h => .pure h.1
    exact fun _ _ _ _ _ => trivial

theorem yields_parseHintArray : Yields memSize parseHintArray HintArray.Complete := by
  refine .after fun n => ?_
  split
  · exact .fail _
  · next hn =>
      refine .after fun _ => .bind (.mapFail _ (.collect (Q := fun _ => True) ?_ n))
        fun hints h => .pure ⟨not_not.mp hn, h.1.trans (not_not.mp hn)⟩
      exact fun _ _ _ _ _ => trivial

theorem hints_told {e : HintArray}
    (h : runParse memSize (mark .hints >>= fun _ => called .hints parseHintArray) b =
      .ok (.error e, b')) :
    ¬ AllSucceeded memSize (mark .hints >>= fun _ => called .hints parseHintArray) b := by
  have hmark : readStep memSize (.mark .hints) b = .ok ((), b) := rfl
  intro hall
  have h := (Prog.run_step_ok hmark).symm.trans h
  exact called_told h ((Prog.each_step_ok hmark).mp hall).2

theorem yields_uncheckedHints : Yields memSize uncheckedHints HintArray.Complete := by
  refine .bind (.attempt (.after fun _ => .called _ yields_parseHintArray) fun _ _ _ => hints_told)
    fun x hx => .pure ?_
  obtain ⟨a, rfl, ha⟩ := hx
  exact ha

theorem yields_parseSelectField :
    Yields memSize (parseSelectField memSize) SelectField.Complete := by
  have hnone : ∀ type fieldName aliseName funcType selectName,
      SelectField.Complete ⟨type, fieldName, aliseName, funcType, selectName, none⟩ :=
    fun _ _ _ _ _ r h => by cases h
  refine .after fun type => ?_
  split
  · exact .after fun _ => .after fun _ => .pure (hnone _ _ _ _ _)
  split
  · refine .after fun code => .after fun _ => .after fun _ => .after fun _ => ?_
    split
    · refine .bind (.attempt (.called _ (yields_parseCondition true)) fun _ _ _ => called_told)
        fun x hx => .pure fun r hr => ?_
      obtain ⟨a, rfl, ha⟩ := hx
      cases hr
      exact ha
    · exact .pure (hnone _ _ _ _ _)
  split
  · exact .pure (hnone _ _ _ _ _)
  · exact .fail _

theorem yields_finish {packet : Packet} (h : packet.Complete) :
    Yields memSize (finish packet) Packet.Complete := by
  refine .after fun crossed => ?_
  split
  · exact .fail _
  · exact .pure h

/-- Each parser gives complete packets. -/
theorem yields_parsePacket (kind : PacketKind) :
    Yields memSize (parsePacket memSize kind) Packet.Complete := by
  have hhints := @yields_uncheckedHints memSize
  have hcond : Yields memSize (checkedCondition memSize) ConditionArray.Complete :=
    .mapFail _ (.called _ (yields_parseCondition false))
  match kind with
  | .insert =>
    refine .after fun tableName => .after fun columnNum => ?_
    split
    · exact .fail _
    · exact .after fun _ => .after fun datas => yields_finish trivial
  | .delete =>
    refine .after fun tableName => .bind hhints fun hiArray hh => ?_
    exact .bind hcond fun indexCond hi => .bind hcond fun filterCond hf =>
      yields_finish ⟨hh, hi, hf⟩
  | .update =>
    refine .after fun tableName => .after fun fieldName => .after fun data => ?_
    refine .bind hhints fun hiArray hh => .bind hcond fun indexCond hi => ?_
    exact .bind hcond fun filterCond hf => yields_finish ⟨hh, hi, hf⟩
  | .export =>
    refine .after fun tableName => .after fun savePath => .bind hhints fun hiArray hh => ?_
    refine .bind hcond fun indexCond hi => .bind hcond fun filterCond hf => ?_
    exact .after fun limit => yields_finish ⟨hh, hi, hf⟩
  | .query =>
    have hselect : Yields memSize (parseSelectFieldArray memSize) fun fs =>
        ∀ f ∈ fs, f.Complete := .after fun n => .after fun _ => .mapFail _ fun _ _ _ hrun hall =>
      (yields_parseSelectField.collect n hrun hall).2
    refine .after fun accessType => .after fun tableName => ?_
    refine .bind (.mapFail _ (.called _ yields_parseHintArray)) fun hiArray hh => ?_
    refine .bind (.called _ hselect) fun selectField hs => ?_
    refine .bind hcond fun indexCond hi => .bind hcond fun filterCond hf => ?_
    refine .after fun groupArray => .after fun groupOrderArray => .after fun groupLimit => ?_
    exact .after fun orderArray => .after fun limit => yields_finish ⟨hh, hs, hi, hf⟩

variable (memSize) in
/-- A parser whose result is not returned when a read has passed the end. -/
def EndsInside {ε α : Type} (m : Parse ε α) : Prop :=
  ∀ ⦃b a b'⦄, runParse memSize m b = .ok (.ok a, b') → b'.arrayBorder = false

theorem EndsInside.after {m : Parse ε α} {f : α → Parse ε β}
    (hf : ∀ a, EndsInside memSize (f a)) : EndsInside memSize (m >>= f) := by
  intro b a b' h
  rcases Prog.run_bind_cases h with ⟨e, -, habs⟩ | ⟨c, b₁, -, hf₁⟩
  · cases habs
  · exact hf c hf₁

theorem endsInside_finish (packet : Packet) : EndsInside memSize (finish packet) := by
  intro b a b' h
  have hstep : readStep memSize .border b = .ok (b.arrayBorder, b) := rfl
  have h := (Prog.run_bind_ok (Prog.run_step_ok hstep)).symm.trans h
  by_cases hborder : b.arrayBorder = true
  · rw [hborder] at h
    cases h
  · rw [Bool.not_eq_true] at hborder
    rw [hborder] at h
    cases h
    exact hborder

/-- Each parser ends inside the packet. -/
theorem endsInside_parsePacket (kind : PacketKind) :
    EndsInside memSize (parsePacket memSize kind) := by
  have hfinish : ∀ p, EndsInside memSize (finish p) := endsInside_finish
  match kind with
  | .insert =>
    refine .after fun _ => .after fun columnNum => ?_
    split
    · intro b a b' h
      cases h
    · exact .after fun _ => .after fun _ => hfinish _
  | .delete => exact .after fun _ => .after fun _ => .after fun _ => .after fun _ => hfinish _
  | .update =>
    refine .after fun _ => .after fun _ => .after fun _ => .after fun _ => ?_
    exact .after fun _ => .after fun _ => hfinish _
  | .export =>
    refine .after fun _ => .after fun _ => .after fun _ => .after fun _ => ?_
    exact .after fun _ => .after fun _ => hfinish _
  | .query =>
    refine .after fun _ => .after fun _ => .after fun _ => .after fun _ => ?_
    refine .after fun _ => .after fun _ => .after fun _ => .after fun _ => ?_
    exact .after fun _ => .after fun _ => .after fun _ => hfinish _

/-! ## §8. Accepted runs are clean. -/

/-- An operation that ended without reading past the end was clean. -/
theorem cleanParse_of_ok {op : ReadOp} {r : op.Res} (hop : op.isMark = false) (hb : b.Valid)
    (h : readStep memSize op b = .ok (r, b')) (hborder : b'.arrayBorder = false) :
    CleanParse memSize op b := by
  have hlen := hb.1
  have hstays : Stays b (readStep memSize op b) := by
    rw [h]
    exact ⟨(readStep_follows hb.1 h).le, (readStep_valid op b r b' hb h).2⟩
  cases op with
  | int width | bytes len => exact ⟨(readChecked_stays_iff hb.1 hb.2).mp hstays, trivial⟩
  | cstring =>
    have h : readCstring memSize b = .ok (r, b') := h
    obtain ⟨hfour, -⟩ := (readCstring_stays_iff hb.1 hb.2).mp hstays
    unfold readCstring at h
    by_cases hcross : b.dataLen < add32 b.rpos 4
    · rw [if_pos hcross] at h
      cases h
      cases hborder
    have hin := (RightCheck.le (.inr hfour) hcross).2
    rw [if_neg hcross, readInt_inside hlen hin] at h
    simp only [readCstringBody] at h
    split_ifs at h with hbody hrefused hstray <;> cases h
    · cases hborder
    have hin' : b.rpos + 4 + beNat (b.peek 4) ≤ b.dataLen := by
      have : DataBuffer.dataLen { b with rpos := b.rpos + 4 } = b.dataLen := rfl
      omega
    refine ⟨⟨.inr hfour, fun _ => ⟨.inr (by omega), fun _ => by omega⟩⟩, fun _ _ => ?_⟩
    simp only [refused, if_pos (show beNat (b.peek 4) < 2 ^ 31 by omega),
      decide_eq_true_eq] at hrefused
    omega
  | copy temp len =>
    by_cases hle : len ≤ temp.length
    · exact ⟨hle, trivial⟩
    · cases (if_neg hle).symm.trans h
  | alloc size =>
    by_cases hle : size ≤ memSize
    · exact ⟨trivial, hle⟩
    · cases (if_neg hle).symm.trans h
  | mark m => cases hop
  | exceeds len | border | returned c ok => exact ⟨trivial, trivial⟩

variable (memSize) in
/-- A run of the parser that succeeds without reading past the end, as all its components
do, is clean. -/
def Cleans {ε α : Type} (m : Parse ε α) : Prop :=
  ∀ ⦃b : DataBuffer⦄, b.Valid → ∀ ⦃a b'⦄, runParse memSize m b = .ok (.ok a, b') →
    b'.arrayBorder = false → AllSucceeded memSize m b → CleanRun memSize m b

namespace Cleans

theorem pure (a : α) : Cleans memSize (Prog.pure a : Parse ε α) := fun _ _ _ _ _ _ _ => trivial

theorem fail (e : ε) : Cleans memSize (Prog.fail e : Parse ε α) := fun _ _ _ _ _ _ _ => trivial

variable {m : Parse ε α} {f : α → Parse ε β}

theorem bind (hm : Cleans memSize m) (hf : ∀ a, Cleans memSize (f a)) :
    Cleans memSize (m >>= f) := by
  intro b hb c b' hrun hborder hall
  obtain ⟨hall, hall'⟩ := Prog.each_bind.mp hall
  rcases Prog.run_bind_cases hrun with ⟨e, -, habs⟩ | ⟨a, b₁, hm₁, hf₁⟩
  · cases habs
  have hv := (runParse_follows hb hm₁).1
  refine Prog.each_bind.mpr ⟨hm hb hm₁ (runParse_border hv hf₁ hborder) hall, ?_⟩
  intro a' b₂ hm₂
  cases hm₁.symm.trans hm₂
  exact hf a hv hf₁ hborder (hall' a b₁ hm₁)

theorem ask {op : ReadOp} (hop : op.isMark = false) :
    Cleans memSize (Prog.ask op : Parse ε op.Res) := by
  intro b hb r b' hrun hborder _
  obtain ⟨r, hstep, -⟩ := runParse_ask hrun
  exact (Prog.each_step_ok hstep).mpr ⟨cleanParse_of_ok hop hb hstep hborder, trivial⟩

theorem mapFail (g : ε → ε') (hm : Cleans memSize m) : Cleans memSize (m.mapFail g) := by
  intro b hb a b' hrun hborder hall
  exact Prog.each_mapFail.mpr
    (hm hb (Prog.run_mapFail_ok.mp hrun) hborder (Prog.each_mapFail.mp hall))

theorem called (c : Component) (hm : Cleans memSize m) :
    Cleans memSize (Protocol.called c m) := by
  intro b hb a b' hrun hborder hall
  rw [run_called] at hrun
  exact each_called.mpr
    ⟨hm hb hrun hborder (each_called.mp hall).1, fun _ _ _ => ⟨trivial, trivial⟩⟩

/-- The return code is ignored, but a component that failed is told of. -/
theorem attempt (hm : Cleans memSize m)
    (htold : ∀ ⦃b e b'⦄, runParse memSize m b = .ok (.error e, b') → ¬ AllSucceeded memSize m b) :
    Cleans memSize (m.attempt : Parse ε' (Except ε α)) := by
  intro b hb x b' hrun hborder hall
  have hall := Prog.each_attempt.mp hall
  obtain ⟨y, hrun, -⟩ := Prog.run_attempt_inv hrun
  cases y with
  | error e => exact absurd hall (htold hrun)
  | ok a => exact Prog.each_attempt.mpr (hm hb hrun hborder hall)

/-- What stands at a label is well formed when the parser behind it succeeds. -/
theorem marked {k : Mark} {f : Parse ε α} (hf : Cleans memSize f)
    (h : ∀ ⦃b : DataBuffer⦄, b.Valid → ∀ ⦃a b'⦄, runParse memSize f b = .ok (.ok a, b') →
      b'.arrayBorder = false → CleanMark memSize b k) :
    Cleans memSize (mark k >>= fun _ => f) := by
  intro b hb a b' hrun hborder hall
  have hstep : readStep memSize (.mark k) b = .ok ((), b) := rfl
  have hrun := (Prog.run_step_ok hstep).symm.trans hrun
  have hclean := hf hb hrun hborder ((Prog.each_step_ok hstep).mp hall).2
  exact (Prog.each_step_ok hstep).mpr ⟨⟨trivial, .inr (h hb hrun hborder)⟩, hclean⟩

variable (memSize) in
theorem rule : ParserRule fun m => Cleans memSize m where
  pure := pure
  fail := fail
  bind := bind
  mapFail := mapFail
  called := called
  readWidth _ := ask rfl
  cstring := @fun _ => ask rfl
  alloc _ := ask rfl
  border := ask rfl

end Cleans

/-- A number that is followed by a successful run was read inside the data. -/
theorem ok_after_width {width : Nat} {f : Nat → Parse ε α} {a : α} (hb : b.Valid)
    (h : runParse memSize (readWidth width >>= f) b = .ok (.ok a, b'))
    (hborder : b'.arrayBorder = false) :
    b.rpos + width ≤ b.dataLen ∧
      runParse memSize (f (beNat (b.peek width))) { b with rpos := b.rpos + width } =
        .ok (.ok a, b') := by
  rcases Prog.run_bind_cases h with ⟨e', -, habs⟩ | ⟨v, b₁, hread, hrest⟩
  · cases habs
  rcases readWidth_cases hb hread with hcross | ⟨hin, hv, rfl⟩
  · rw [runParse_border (runParse_follows hb hread).1 hrest hborder] at hcross
    cases hcross
  · cases hv
    exact ⟨hin, hrest⟩

theorem knownType_of_readTyped {type len : Nat} {v : DynValue}
    (h : runParse memSize (readTyped type len) b = .ok (.ok v, b')) : knownType type = true := by
  unfold readTyped at h
  unfold knownType
  cases htype : FieldType.ofByte? (UInt8.ofNat type) with
  | none => rw [htype] at h; cases h
  | some t =>
    simp only [htype] at h ⊢
    cases hwidth : fixedWidth t with
    | some width => rfl
    | none =>
      simp only [hwidth] at h
      split at h
      · next htext => simpa using htext
      · cases h

/-- A value that was read had a sound length. -/
theorem cleanMark_value {v : DynValue} (hb : b.Valid)
    (h : runParse memSize (readDynValue memSize) b = .ok (.ok v, b'))
    (hborder : b'.arrayBorder = false) : CleanMark memSize b .value := by
  have hmark : readStep memSize (.mark .dynValue) b = .ok ((), b) := rfl
  have h := (Prog.run_step_ok hmark).symm.trans h
  intro _
  obtain ⟨hin, h⟩ := ok_after_width hb h hborder
  by_cases hnull : beNat (b.peek 1) = FieldType.null.toByte.toNat
  · exact .inl hnull
  rw [if_neg hnull] at h
  have hb₁ : DataBuffer.Valid { b with rpos := b.rpos + 1 } := ⟨hb.1, hin⟩
  obtain ⟨hin', h⟩ := ok_after_width hb₁ h hborder
  rw [b.peek_length] at h
  have hlen : b.rpos + 1 + 4 ≤ b.dataLen := hin'
  simp only
  generalize beNat ((b.peek 5).drop 1) = len at h ⊢
  have hstep : readStep memSize (.exceeds len) { b with rpos := b.rpos + 1 + 4 } =
      .ok (decide (b.dataLen - (b.rpos + 1 + 4) < len), { b with rpos := b.rpos + 1 + 4 }) := rfl
  have h := (Prog.run_step_ok hstep).symm.trans h
  by_cases hlong : b.dataLen - (b.rpos + 1 + 4) < len
  · rw [decide_eq_true hlong] at h
    cases h
  rw [decide_eq_false hlong] at h
  simp only [Prog.bind, Bool.false_eq_true, if_false] at h
  by_cases hpool : memSize < len
  · rw [if_pos hpool] at h
    cases h
  rw [if_neg hpool] at h
  refine .inr ⟨by omega, not_lt.mp hpool, ?_⟩
  by_cases hzero : len = 0
  · exact .inl hzero
  · rw [if_neg hzero] at h
    exact .inr (knownType_of_readTyped h)

theorem cleans_readDynValue : Cleans memSize (readDynValue memSize) := by
  have hmark : ∀ b, readStep memSize (.mark .dynValue) b = .ok ((), b) := fun _ => rfl
  refine (Cleans.rule memSize).value ?_ (fun _ => .ask rfl) (fun _ _ => .ask rfl) ?_
  · exact fun b _ _ _ _ _ _ => (Prog.each_step_ok (hmark b)).mpr ⟨⟨trivial, .inr trivial⟩, trivial⟩
  · refine fun hm => .bind (.ask rfl) fun tooLong => ?_
    split
    · exact .fail _
    · exact hm

theorem cleans_parseValue (ignored : Bool) : Cleans memSize (parseValue memSize ignored) := by
  have hcalled : Cleans memSize (called .value (readDynValue memSize)) :=
    .called _ cleans_readDynValue
  cases ignored with
  | false => exact hcalled
  | true =>
    refine .marked hcalled fun b hb v b' hrun hborder => ?_
    rw [run_called] at hrun
    exact cleanMark_value hb hrun hborder

theorem cleans_parseConditionItem (ignored : Bool) :
    Cleans memSize (parseConditionItem memSize ignored) := by
  have hitem := (Cleans.rule memSize).item (cleans_parseValue ignored)
  cases ignored with
  | false => exact hitem
  | true =>
    refine .marked hitem fun b hb v b' hrun hborder _ => ?_
    obtain ⟨-, hrun⟩ := ok_after_width hb hrun hborder
    by_contra hne
    rw [not_or] at hne
    rw [if_neg hne.1, if_neg hne.2] at hrun
    cases hrun

theorem cleans_uncheckedHints : Cleans memSize uncheckedHints := by
  refine .bind (.attempt (.marked (.called _ (Cleans.rule memSize).parseHintArray) ?_)
    fun _ _ _ => hints_told) fun _ => .pure _
  intro b hb a b' hrun hborder _
  rw [run_called] at hrun
  obtain ⟨-, hrun⟩ := ok_after_width hb hrun hborder
  by_contra hne
  rw [if_pos hne] at hrun
  cases hrun

theorem cleans_parsePacket (kind : PacketKind) : Cleans memSize (parsePacket memSize kind) := by
  have hrule := Cleans.rule memSize
  refine hrule.parsePacket cleans_readDynValue (cleans_parseConditionItem false) ?_
    cleans_uncheckedHints kind
  exact .attempt (.called _ (hrule.parseCondition (cleans_parseConditionItem true)))
    fun _ _ _ => called_told

end Components

/-! ## §9. Truncated packets. -/

theorem CleanRun.ok (hb : b.Valid) (h : CleanRun memSize m b) :
    ∃ x b', runParse memSize m b = .ok (x, b') := by
  obtain ⟨⟨x, b'⟩, hrun⟩ :=
    Prog.run_ok readStep_valid (fun op c hc hop => CleanParse.ok memSize hc hop) hb h
  exact ⟨x, b', hrun⟩

end

/-- A delete from table `t` with four hints and no conditions. -/
def smallDelete : Bytes := [0, 0, 0, 1, 116, 0, 0, 0, 4] ++ replicate 40 0

/-- The number of bytes a parser has consumed when it returned a packet. -/
def consumed (memSize : Nat) (kind : PacketKind) (s : Bytes) : Option Nat :=
  match runParse memSize (parsePacket memSize kind) ⟨s, 0, false⟩ with
  | .ok (.ok _, b) => some b.rpos
  | _ => none

/-- A query of a function with a range expression: one comparison with a string
of 29 bytes, the last 28 of which look like the rest of a packet. -/
def rangeQuery : Bytes :=
  [0, 0] ++ [0, 0, 0, 0] ++ [0, 0, 0, 4] ++ replicate 32 0 ++
    -- the select field, its range expression, and the string
    [0, 0, 0, 1] ++ [1, 178] ++ replicate 12 0 ++
    [0, 0, 0, 1] ++ [1, 0, 0, 0, 0, 7, 0, 0, 0, 1] ++ [254, 0, 0, 0, 29] ++ replicate 29 0 ++
    -- the conditions, the group, order and limit fields
    replicate 28 0

end Mile.Protocol
