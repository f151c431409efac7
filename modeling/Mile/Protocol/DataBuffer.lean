/-
  Mile.Protocol.DataBuffer
  ────────────────────────
  **READING A PACKET** (`protocol/databuffer.c`).

  A read that would pass the end of the data sets `array_border` and returns 0 or `NULL`.
  Positions and lengths are 32-bit unsigned, the length of a C string is signed.
-/
import Mile.Common.Def
import Mile.Lib.Prog

namespace Mile.Protocol

open Lib Common

/-! ## §1. The buffer. -/

/-- The fields of `struct data_buffer` that are read: `data_len` is the length
of `data`. -/
structure DataBuffer where
  data : Bytes
  rpos : Nat
  arrayBorder : Bool
  deriving DecidableEq

/-- The `data_len` field. -/
def DataBuffer.dataLen (b : DataBuffer) : Nat := b.data.length

/-- `array_border = 1`. -/
def DataBuffer.cross (b : DataBuffer) : DataBuffer := { b with arrayBorder := true }

def beNat (bs : Bytes) : Nat := leNat bs.reverse

/-- The `n` bytes at the position. -/
def DataBuffer.peek (b : DataBuffer) (n : Nat) : Bytes := (b.data.drop b.rpos).take n

theorem DataBuffer.beNat_peek_lt (b : DataBuffer) (n : Nat) : beNat (b.peek n) < 256 ^ n := by
  refine (leNat_lt _).trans_le (Nat.pow_le_pow_right (by decide) ?_)
  rw [List.length_reverse]
  exact List.length_take_le _ _

def add32 (a c : Nat) : Nat := (a + c) % 2 ^ 32

/-- What ends a run: a read outside of the memory it is meant for, or a write
to memory that could not be allocated. -/
inductive Fault where
  | stray
  | crash
  deriving DecidableEq

/-- The parts of a packet that are parsed by a function of their own. -/
inductive Component where
  | hints
  | selectFields
  | conditions
  | value
  deriving DecidableEq

/-- Points of a parse that only label the run: before a hint array, a condition
or a value whose parser's return code is ignored, and at the start of
`read_dyn_value`. -/
inductive Mark where
  | hints
  | condition
  | value
  | dynValue
  deriving DecidableEq

/-- The operations of the packet parsers.  `int` is `read_int8` to
`read_int64` by its width; `exceeds` is the test of `read_dyn_value`; `copy`
copies from a local variable; `alloc` is a `mem_pool_malloc` whose memory is
written at once.  `mark` and `returned` do nothing: they tell what is parsed,
and whether a component's parser succeeded. -/
inductive ReadOp where
  | int (width : Nat)
  | bytes (len : Nat)
  | cstring
  | exceeds (len : Nat)
  | copy (temp : Bytes) (len : Nat)
  | alloc (size : Nat)
  | border
  | mark (m : Mark)
  | returned (c : Component) (ok : Bool)

def ReadOp.Res : ReadOp → Type
  | .int _ => Nat
  | .bytes _ => Option Bytes
  | .cstring => Option Bytes
  | .exceeds _ => Bool
  | .copy _ _ => Bytes
  | .alloc _ => Unit
  | .border => Bool
  | .mark _ => Unit
  | .returned _ _ => Unit

/-! ## §2. The operations. -/

/-- The common shape of the reads of `n` bytes: a read past the end gives `miss`. -/
def readChecked {α : Type} (n : Nat) (miss : α) (value : Bytes → α) (b : DataBuffer) :
    Except Fault (α × DataBuffer) :=
  if b.dataLen < add32 b.rpos n then .ok (miss, b.cross)
  else if b.rpos + n ≤ b.dataLen then .ok (value (b.peek n), { b with rpos := add32 b.rpos n })
  else .error .stray

/-- `read_int8`, `read_int16`, `read_int32` and `read_int64`, by their width. -/
def readInt (width : Nat) : DataBuffer → Except Fault (Nat × DataBuffer) :=
  readChecked width 0 beNat

/-- `read_bytes`; nothing is copied past the end. -/
def readBytes (len : Nat) : DataBuffer → Except Fault (Option Bytes × DataBuffer) :=
  readChecked len none some

/-- `mem_pool_malloc(mem, len + 1)` returns `NULL`: the size is an `int` that is
taken as a `size_t`, so every negative one is above the size of the pool. -/
def refused (memSize len : Nat) : Bool :=
  if len < 2 ^ 31 then memSize < len + 1 else len + 1 < 2 ^ 32

/-- `read_cstring` behind its length field.  `rpos + len` is a 32-bit unsigned
sum also for a negative `len`, which `memcpy` then takes as a size. -/
def readCstringBody (memSize len : Nat) (b : DataBuffer) :
    Except Fault (Option Bytes × DataBuffer) :=
  if b.dataLen < add32 b.rpos len then .ok (none, b.cross)
  else if refused memSize len then .error .crash
  else if 2 ^ 31 ≤ len ∨ b.dataLen < b.rpos + len then .error .stray
  else .ok (some (b.peek len), { b with rpos := add32 b.rpos len })

/-- `read_cstring`. -/
def readCstring (memSize : Nat) (b : DataBuffer) : Except Fault (Option Bytes × DataBuffer) :=
  if b.dataLen < add32 b.rpos 4 then .ok (none, b.cross)
  else
    match readInt 4 b with
    | .ok (len, b') => readCstringBody memSize len b'
    | .error e => .error e

/-- What an operation does, with `memSize` bytes in the memory pool. -/
def readStep (memSize : Nat) : (op : ReadOp) → DataBuffer → Except Fault (op.Res × DataBuffer)
  | .int width, b => readInt width b
  | .bytes len, b => readBytes len b
  | .cstring, b => readCstring memSize b
  | .exceeds len, b => .ok (decide (b.dataLen - b.rpos < len), b)
  | .copy temp len, b => if len ≤ temp.length then .ok (temp.take len, b) else .error .stray
  | .alloc size, b => if size ≤ memSize then .ok ((), b) else .error .crash
  | .border, b => .ok (b.arrayBorder, b)
  | .mark _, b => .ok ((), b)
  | .returned _ _, b => .ok ((), b)

/-! ## §3. Staying inside. -/

/-- A read from `b` was inside the data, and left the position inside the data
and not before where it was.  A copy to `NULL` ends the run before anything is read
past the end. -/
def Stays {α : Type} (b : DataBuffer) : Except Fault (α × DataBuffer) → Prop
  | .ok (_, b') => b.rpos ≤ b'.rpos ∧ b'.rpos ≤ b'.dataLen
  | .error e => e = .crash

abbrev ReadsInside (memSize : Nat) (op : ReadOp) (b : DataBuffer) : Prop :=
  Stays b (readStep memSize op b)

/-- A bound check by a 32-bit sum is right: it rejects, or the sum is not cut. -/
abbrev RightCheck (dataLen pos n : Nat) : Prop := dataLen < add32 pos n ∨ pos + n < 2 ^ 32

/-- The operation finds a state in which its bound checks are right, the length
of a string is not negative, and no more bytes are copied from a local
variable than it has. -/
def CleanRead (op : ReadOp) (b : DataBuffer) : Prop :=
  match op with
  | .int width => RightCheck b.dataLen b.rpos width
  | .bytes len => RightCheck b.dataLen b.rpos len
  | .cstring =>
    RightCheck b.dataLen b.rpos 4 ∧
      (b.rpos + 4 ≤ b.dataLen →
        RightCheck b.dataLen (b.rpos + 4) (beNat (b.peek 4)) ∧
          (add32 (b.rpos + 4) (beNat (b.peek 4)) ≤ b.dataLen → beNat (b.peek 4) < 2 ^ 31))
  | .copy temp len => len ≤ temp.length
  | _ => True

/-- The string at the position does not have the length -1, and the pool has no room
for one that reaches beyond 4 GiB. -/
def StringLength (memSize : Nat) (b : DataBuffer) : Prop :=
  b.rpos + 4 ≤ b.dataLen →
    beNat (b.peek 4) ≠ 2 ^ 32 - 1 ∧
      (b.rpos + 4 + beNat (b.peek 4) < 2 ^ 32 ∨ refused memSize (beNat (b.peek 4)) = true)

instance {α : Type} (b : DataBuffer) (r : Except Fault (α × DataBuffer)) :
    Decidable (Stays b r) := by
  unfold Stays
  split <;> infer_instance

instance (op : ReadOp) (b : DataBuffer) : Decidable (CleanRead op b) := by
  unfold CleanRead
  split <;> infer_instance

instance (memSize : Nat) (b : DataBuffer) : Decidable (StringLength memSize b) := by
  unfold StringLength
  infer_instance

theorem add32_of_lt {a c : Nat} (h : a + c < 2 ^ 32) : add32 a c = a + c := Nat.mod_eq_of_lt h

theorem add32_le (a c : Nat) : add32 a c ≤ a + c := Nat.mod_le _ _

theorem RightCheck.le {dataLen pos n : Nat} (h : RightCheck dataLen pos n)
    (hle : ¬ dataLen < add32 pos n) : pos + n < 2 ^ 32 ∧ pos + n ≤ dataLen := by
  have hlt := h.resolve_left hle
  rw [add32_of_lt hlt] at hle
  exact ⟨hlt, Nat.le_of_not_lt hle⟩

theorem rightCheck_of_le {dataLen pos n : Nat} (hlen : dataLen < 2 ^ 32) (h : pos + n ≤ dataLen) :
    RightCheck dataLen pos n := .inr (by omega)

/-- The length field of a value stands behind its type. -/
theorem DataBuffer.peek_length (b : DataBuffer) :
    DataBuffer.peek { b with rpos := b.rpos + 1 } 4 = (b.peek 5).drop 1 := by
  simp only [DataBuffer.peek]
  rw [List.drop_take, List.drop_drop]

theorem readInt_inside {b : DataBuffer} {width : Nat} (hlen : b.dataLen < 2 ^ 32)
    (hin : b.rpos + width ≤ b.dataLen) :
    readInt width b = .ok (beNat (b.peek width), { b with rpos := b.rpos + width }) := by
  rw [readInt, readChecked, add32_of_lt (by omega), if_neg (not_lt.mpr hin), if_pos hin]

/-- A sum that is cut is below the position, so that a check by it does not reject. -/
theorem rightCheck_iff_lt {dataLen pos n : Nat} (hlen : dataLen < 2 ^ 32) (hpos : pos ≤ dataLen)
    (hn : n < 2 ^ 32) : RightCheck dataLen pos n ↔ pos + n < 2 ^ 32 := by
  refine ⟨fun h => ?_, .inr⟩
  by_contra hcut
  have hsum : add32 pos n = pos + n - 2 ^ 32 := by
    unfold add32
    rw [Nat.mod_eq_sub_mod (by omega), Nat.mod_eq_of_lt (by omega)]
  rcases h with h | h <;> omega

section Stays

variable {b : DataBuffer} (hlen : b.dataLen < 2 ^ 32) (hpos : b.rpos ≤ b.dataLen)
include hlen hpos

/-- When a checked read stays inside. -/
theorem readChecked_stays_iff {α : Type} {n : Nat} {miss : α} {value : Bytes → α} :
    Stays b (readChecked n miss value b) ↔ RightCheck b.dataLen b.rpos n := by
  unfold readChecked
  by_cases hcross : b.dataLen < add32 b.rpos n
  · rw [if_pos hcross]
    exact ⟨fun _ => .inl hcross, fun _ => ⟨le_rfl, hpos⟩⟩
  · rw [if_neg hcross]
    by_cases hin : b.rpos + n ≤ b.dataLen
    · rw [if_pos hin]
      refine ⟨fun _ => rightCheck_of_le hlen hin, fun _ => ?_⟩
      show b.rpos ≤ add32 b.rpos n ∧ add32 b.rpos n ≤ b.dataLen
      rw [add32_of_lt (by omega)]
      omega
    · rw [if_neg hin]
      constructor
      · intro h
        cases h
      · exact fun h => absurd (h.le hcross).2 hin

/-- What follows the length field stays inside: a length of -1 passes the check and the
allocation of no bytes, all other negative ones are too long for the pool. -/
theorem readCstringBody_stays_iff {memSize len : Nat} (hfour : 4 ≤ b.rpos) (hfits : len < 2 ^ 32) :
    Stays b (readCstringBody memSize len b) ↔
      len ≠ 2 ^ 32 - 1 ∧ (b.rpos + len < 2 ^ 32 ∨ refused memSize len = true) := by
  have hcheck := rightCheck_iff_lt hlen hpos hfits
  unfold readCstringBody
  by_cases hcross : b.dataLen < add32 b.rpos len
  · rw [if_pos hcross]
    have hlt := hcheck.mp (.inl hcross)
    exact ⟨fun _ => ⟨by omega, .inl hlt⟩, fun _ => ⟨le_rfl, hpos⟩⟩
  rw [if_neg hcross]
  by_cases hrefused : refused memSize len = true
  · rw [if_pos hrefused]
    refine ⟨fun _ => ⟨?_, .inr hrefused⟩, fun _ => rfl⟩
    rintro rfl
    simp [refused] at hrefused
  rw [if_neg hrefused]
  have hkind : len < 2 ^ 31 ∨ len = 2 ^ 32 - 1 := by
    simp only [refused] at hrefused
    split at hrefused
    · exact .inl ‹_›
    · simp only [decide_eq_true_eq] at hrefused
      omega
  by_cases hstray : 2 ^ 31 ≤ len ∨ b.dataLen < b.rpos + len
  · rw [if_pos hstray]
    constructor
    · intro h
      cases h
    · rintro ⟨hminus, hlt | hr⟩
      · have := (RightCheck.le (.inr hlt) hcross).2
        omega
      · exact absurd hr hrefused
  · rw [if_neg hstray]
    refine ⟨fun _ => ⟨by omega, .inl (by omega)⟩, fun _ => ?_⟩
    show b.rpos ≤ add32 b.rpos len ∧ add32 b.rpos len ≤ b.dataLen
    rw [add32_of_lt (by omega)]
    omega

variable {memSize : Nat}

omit hpos in
theorem readCstringBody_le {len : Nat} {v : Option Bytes} {b' : DataBuffer}
    (h : readCstringBody memSize len b = .ok (v, b')) : b.rpos ≤ b'.rpos := by
  unfold readCstringBody at h
  split_ifs at h with hcross hrefused hstray <;> cases h
  · exact le_rfl
  · show b.rpos ≤ add32 b.rpos len
    rw [add32_of_lt (by omega)]
    omega

/-- When `read_cstring` stays inside. -/
theorem readCstring_stays_iff :
    Stays b (readCstring memSize b) ↔ b.rpos + 4 < 2 ^ 32 ∧ StringLength memSize b := by
  have hcheck := rightCheck_iff_lt hlen hpos (show 4 < 2 ^ 32 by decide)
  unfold readCstring StringLength
  by_cases hcross : b.dataLen < add32 b.rpos 4
  · rw [if_pos hcross]
    have hout : ¬ b.rpos + 4 ≤ b.dataLen := by have := add32_le b.rpos 4; omega
    exact ⟨fun _ => ⟨hcheck.mp (.inl hcross), fun h => absurd h hout⟩, fun _ => ⟨le_rfl, hpos⟩⟩
  rw [if_neg hcross]
  by_cases hin : b.rpos + 4 ≤ b.dataLen
  · simp only [readInt_inside hlen hin, hin, forall_true_left, show b.rpos + 4 < 2 ^ 32 by omega,
      true_and]
    -- the position after the length field is inside, too
    have hbody := @readCstringBody_stays_iff { b with rpos := b.rpos + 4 }
      hlen hin memSize _ (Nat.le_add_left 4 _) (b.beNat_peek_lt 4)
    refine Iff.trans ?_ hbody
    cases hr : readCstringBody memSize (beNat (b.peek 4)) { b with rpos := b.rpos + 4 } with
    | error e => exact Iff.rfl
    | ok r =>
      have hle : b.rpos + 4 ≤ r.2.rpos := readCstringBody_le
        (b := { b with rpos := b.rpos + 4 }) hlen hr
      exact ⟨fun h => ⟨hle, h.2⟩, fun h => ⟨by omega, h.2⟩⟩
  · have hint : readInt 4 b = .error .stray := by
      rw [readInt, readChecked, if_neg hcross, if_neg hin]
    simp only [hint]
    constructor
    · intro h
      cases h
    · exact fun h => absurd (RightCheck.le (.inr h.1) hcross).2 hin

end Stays

/-! ## §4. What every operation keeps. -/

/-- The buffer after an operation: the same data, a position that is not before
the old one and still inside, and no forgotten border. -/
structure Follows (b b' : DataBuffer) : Prop where
  data : b'.data = b.data
  le : b.rpos ≤ b'.rpos
  inside : b.rpos ≤ b.dataLen → b'.rpos ≤ b'.dataLen
  border : b.arrayBorder = true → b'.arrayBorder = true

theorem Follows.refl (b : DataBuffer) : Follows b b := ⟨rfl, le_rfl, id, id⟩

variable {b : DataBuffer}

theorem Follows.trans {c d : DataBuffer} (h : Follows b c) (h' : Follows c d) : Follows b d :=
  ⟨h'.data.trans h.data, h.le.trans h'.le, fun hb => h'.inside (h.inside hb),
    fun hb => h'.border (h.border hb)⟩

theorem Follows.dataLen {b' : DataBuffer} (h : Follows b b') : b'.dataLen = b.dataLen :=
  congrArg List.length h.data

theorem follows_cross (b : DataBuffer) : Follows b b.cross := ⟨rfl, le_rfl, id, fun _ => rfl⟩

theorem follows_advance {n : Nat} (hlen : b.dataLen < 2 ^ 32) (hin : b.rpos + n ≤ b.dataLen) :
    Follows b { b with rpos := add32 b.rpos n } := by
  rw [add32_of_lt (by omega)]
  exact ⟨rfl, Nat.le_add_right _ _, fun _ => hin, id⟩

theorem readChecked_follows {α : Type} {n : Nat} {miss v : α} {value : Bytes → α} {b' : DataBuffer}
    (hlen : b.dataLen < 2 ^ 32) (h : readChecked n miss value b = .ok (v, b')) : Follows b b' := by
  unfold readChecked at h
  split at h
  · cases h
    exact follows_cross b
  · split at h
    · next hin =>
        cases h
        exact follows_advance hlen hin
    · cases h

variable {memSize : Nat}

theorem readCstring_follows {v : Option Bytes} {b' : DataBuffer} (hlen : b.dataLen < 2 ^ 32)
    (h : readCstring memSize b = .ok (v, b')) : Follows b b' := by
  unfold readCstring at h
  split at h
  · cases h
    exact follows_cross b
  · cases hint : readInt 4 b with
    | error e => simp only [hint] at h; cases h
    | ok r =>
      obtain ⟨len, b₁⟩ := r
      simp only [hint] at h
      have hf : Follows b b₁ := readChecked_follows hlen hint
      refine hf.trans ?_
      unfold readCstringBody at h
      split_ifs at h with hcross hrefused hstray <;> cases h
      · exact follows_cross b₁
      · have hlen' : b₁.dataLen < 2 ^ 32 := hf.dataLen ▸ hlen
        exact follows_advance hlen' (by omega)

theorem readStep_follows {op : ReadOp} {r : op.Res} {b' : DataBuffer} (hlen : b.dataLen < 2 ^ 32)
    (h : readStep memSize op b = .ok (r, b')) : Follows b b' := by
  cases op with
  | int width | bytes len => exact readChecked_follows hlen h
  | cstring => exact readCstring_follows hlen h
  | copy temp len | alloc size =>
    simp only [readStep] at h
    split at h
    · cases h
      exact .refl b
    · cases h
  | exceeds len | border | mark m | returned c ok => cases h; exact .refl b

def DataBuffer.Valid (b : DataBuffer) : Prop := b.dataLen < 2 ^ 32 ∧ b.rpos ≤ b.dataLen

theorem readStep_valid (op : ReadOp) (b : DataBuffer) (r : op.Res) (b' : DataBuffer) (hb : b.Valid)
    (h : readStep memSize op b = .ok (r, b')) : b'.Valid := by
  have hf := readStep_follows hb.1 h
  exact ⟨hf.dataLen ▸ hb.1, hf.inside hb.2⟩

end Mile.Protocol
