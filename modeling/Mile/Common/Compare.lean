/-
  Mile.Common.Compare
  ───────────────────
  **COMPARING VALUES** (`common/common_util.c`).

  `compare_ld` orders two values of one type and answers -2 for values it cannot compare.  A value
  without bytes counts as NULL, which stands before every other value.
-/
import Mile.Common.Hash

namespace Mile.Common

open Lib List

/-! ## §1. `compare_ld`. -/

/-- `COMP(a, b)`. -/
def comp {α : Type} [LT α] [DecidableLT α] (a b : α) : Int :=
  (if b < a then 1 else 0) - (if a < b then 1 else 0)

/-- The signed number in the first `w` bytes. -/
def signedAt (w : Nat) (data : Bytes) : Int := toSigned (8 * w) (leAt data 0 w)

/-- The `float` in the first four bytes. -/
def floatAt (data : Bytes) : Float32 := Float32.ofBits (UInt32.ofNat (leAt data 0 4))

/-- The `double` in the first eight bytes. -/
def doubleAt (data : Bytes) : Float := Float.ofBits (UInt64.ofNat (leAt data 0 8))

/-- The branch for `float`. -/
def compareFloat (a b : Float32) : Int := if (a - b).toFloat.abs < 1e-10 then 0 else comp a b

/-- The branch for `double`. -/
def compareDouble (a b : Float) : Int := if (a - b).abs < 1e-10 then 0 else comp a b

/-- The loop of `compare_string`, on `int8_t`. -/
def compareString : Bytes → Bytes → Int
  | [], [] => 0
  | [], _ :: _ => -1
  | _ :: _, [] => 1
  | p :: ps, q :: qs =>
    if toSigned 8 p.toNat < toSigned 8 q.toNat then -1
    else if toSigned 8 q.toNat < toSigned 8 p.toNat then 1
    else compareString ps qs

/-- The `switch` of `compare_ld`, on values that have the bytes of their type. -/
def compareTyped (type : FieldType) (a b : Bytes) : Int :=
  match type with
  | .tiny => comp (signedAt 1 a) (signedAt 1 b)
  | .short => comp (signedAt 2 a) (signedAt 2 b)
  | .unsignedShort => comp (leAt a 0 2) (leAt b 0 2)
  | .long => comp (signedAt 4 a) (signedAt 4 b)
  | .unsignedLong => comp (leAt a 0 4) (leAt b 0 4)
  | .float => compareFloat (floatAt a) (floatAt b)
  | .double => compareDouble (doubleAt a) (doubleAt b)
  | .longlong => comp (signedAt 8 a) (signedAt 8 b)
  | .unsignedLonglong => comp (leAt a 0 8) (leAt b 0 8)
  | .varchar => compareString a b
  | .string => compareString a b
  | _ => -2

/-- `LOW_DATA_IS_NULL`. -/
abbrev LowData.IsNull (d : LowData) : Prop := d.type = .null ∨ d.len = 0

/-- `compare_ld`. -/
def compareLd (a b : LowData) : Int :=
  if a.IsNull ∧ b.IsNull then 0
  else if a.IsNull then -1
  else if b.IsNull then 1
  else if a.type ≠ b.type then -2
  else compareTyped a.type a.data b.data

/-- `is_ld_equal`. -/
def isLdEqual (a b : LowData) : Bool := a.type = b.type && a.data = b.data

/-- The column of a row that `memset` made. -/
def zeroData : LowData := ⟨[], .null, []⟩

theorem zeroData_isNull : zeroData.IsNull := .inl rfl

theorem zeroData_len_lt : zeroData.len < 2 ^ 32 := by decide

/-! ## §2. What a comparison reads. -/

def FieldType.IsText (t : FieldType) : Prop := t = .varchar ∨ t = .string

variable {t : FieldType}

theorem compareLd_null_left {a b : LowData} (ha : a.IsNull) (hb : ¬b.IsNull) :
    compareLd a b = -1 := by
  simp [compareLd, ha, hb]

theorem compareLd_null_right {a b : LowData} (ha : ¬a.IsNull) (hb : b.IsNull) :
    compareLd a b = 1 := by
  simp [compareLd, ha, hb]

theorem compareLd_null {a b : LowData} (ha : a.IsNull) (hb : b.IsNull) : compareLd a b = 0 := by
  simp [compareLd, ha, hb]

theorem compareLd_typed {a b : LowData} (ha : ¬a.IsNull) (hb : ¬b.IsNull) (h : a.type = b.type) :
    compareLd a b = compareTyped a.type a.data b.data := by
  simp [compareLd, ha, hb, h]

/-! ## §3. Equal strings and equal hashes. -/

theorem toSigned_inj {w m n : Nat} (hm : m < 2 ^ w) (hn : n < 2 ^ w)
    (h : toSigned w m = toSigned w n) : m = n := by
  have hcast : ((2 ^ w : Nat) : Int) = 2 ^ w := by push_cast; rfl
  unfold toSigned at h
  split_ifs at h <;> omega

theorem toSigned_byte_inj {p q : UInt8} (h : toSigned 8 p.toNat = toSigned 8 q.toNat) : p = q :=
  UInt8.toNat_inj.mp (toSigned_inj p.toNat_lt q.toNat_lt h)

section Comp

variable {α : Type} [LinearOrder α] [DecidableLT α] {a b : α}

theorem comp_eq_one : comp a b = 1 ↔ b < a := by
  unfold comp
  split_ifs with h1 h2 <;> simp_all
  exact absurd h2 (lt_asymm h1)

theorem comp_eq_neg_one : comp a b = -1 ↔ a < b := by
  unfold comp
  split_ifs with h1 h2 <;> simp_all
  exact absurd h2 (lt_asymm h1)

theorem comp_eq_zero : comp a b = 0 ↔ a = b := by
  rcases lt_trichotomy a b with h | h | h
  · simp [comp, h, h.ne, not_lt_of_gt h]
  · simp [comp, h]
  · simp [comp, h, h.ne', not_lt_of_gt h]

theorem comp_neg_iff : comp a b < 0 ↔ a < b := by
  rcases lt_trichotomy a b with h | h | h
  · simp [comp_eq_neg_one.mpr h, h]
  · rw [comp_eq_zero.mpr h]
    simp [h]
  · simp [comp_eq_one.mpr h, not_lt_of_gt h]

theorem comp_pos_iff : 0 < comp a b ↔ b < a := by
  rcases lt_trichotomy a b with h | h | h
  · simp [comp_eq_neg_one.mpr h, not_lt_of_gt h]
  · rw [comp_eq_zero.mpr h]
    simp [h]
  · simp [comp_eq_one.mpr h, h]

theorem comp_nonpos_iff : comp a b ≤ 0 ↔ a ≤ b := by
  rw [← not_lt, comp_pos_iff, not_lt]

theorem comp_nonneg_iff : 0 ≤ comp a b ↔ b ≤ a := by
  rw [← not_lt, comp_neg_iff, not_lt]

theorem comp_ne_neg_two : comp a b ≠ -2 := by
  unfold comp
  split_ifs <;> decide

end Comp

/-! ## §4. The order of the values of one type. -/

def integerAt (type : FieldType) (data : Bytes) : Int :=
  match type with
  | .tiny => signedAt 1 data
  | .short => signedAt 2 data
  | .unsignedShort => leAt data 0 2
  | .long => signedAt 4 data
  | .unsignedLong => leAt data 0 4
  | .longlong => signedAt 8 data
  | .unsignedLonglong => leAt data 0 8
  | _ => 0

abbrev FieldType.IsInteger (t : FieldType) : Prop :=
  t ∈ [.tiny, .short, .unsignedShort, .long, .unsignedLong, .longlong, .unsignedLonglong]

/-- A value as a list of numbers, ordered from the left: the bytes of a text, the
one number of an integer, nothing for NULL. -/
def orderKey (type : FieldType) (data : Bytes) : List Int :=
  if type.IsInteger then if data = [] then [] else [integerAt type data]
  else data.map fun b => toSigned 8 b.toNat

theorem comp_nat (a b : Nat) : comp (a : Int) (b : Int) = comp a b := by
  unfold comp
  simp only [Int.ofNat_lt]

theorem comp_singleton (a b : Int) : comp [a] [b] = comp a b := by
  unfold comp
  simp [cons_lt_cons_iff]

theorem compareTyped_integer (ht : t.IsInteger) (a b : Bytes) :
    compareTyped t a b = comp (integerAt t a) (integerAt t b) := by
  cases t <;> first | rfl | exact absurd ht (by decide) | exact (comp_nat _ _).symm

theorem compareString_eq_comp (a b : Bytes) :
    compareString a b =
      comp (a.map fun b => toSigned 8 b.toNat) (b.map fun b => toSigned 8 b.toNat) := by
  induction a generalizing b with
  | nil => cases b <;> simp [compareString, comp]
  | cons p ps ih =>
    cases b with
    | nil => simp [compareString, comp]
    | cons q qs =>
      simp only [compareString, ih, comp, map_cons, cons_lt_cons_iff]
      rcases lt_trichotomy (toSigned 8 p.toNat) (toSigned 8 q.toNat) with h | h | h
      · simp [h, h.ne', not_lt_of_gt h]
      · simp [h]
      · simp [h, h.ne', not_lt_of_gt h]

/-- **`compare_ld` orders the values of a type by their keys**, NULL first. -/
theorem compareLd_eq_comp (ht : t.IsInteger ∨ t.IsText) {a b : LowData} (ha : a.type = t)
    (hb : b.type = t) : compareLd a b = comp (orderKey t a.data) (orderKey t b.data) := by
  have htnull : t ≠ .null := by
    rintro rfl
    exact absurd ht (by unfold FieldType.IsText; decide)
  have hnull : ∀ d : LowData, d.type = t → (d.IsNull ↔ d.data = []) := by
    intro d hd
    rw [LowData.IsNull, hd, LowData.len, length_eq_zero_iff]
    exact ⟨fun h => h.resolve_left htnull, .inr⟩
  have hempty : orderKey t [] = [] := by
    simp [orderKey]
  have hkey : ∀ d : Bytes, d ≠ [] → orderKey t d ≠ [] := by
    intro d hd
    unfold orderKey
    split_ifs
    · exact cons_ne_nil _ _
    · simpa using hd
  have hpos : ∀ k : List Int, k ≠ [] → [] < k := by
    intro k hk
    cases k with
    | nil => exact absurd rfl hk
    | cons x xs => exact nil_lt_cons x xs
  by_cases han : a.data = [] <;> by_cases hbn : b.data = []
  · rw [compareLd_null ((hnull a ha).mpr han) ((hnull b hb).mpr hbn), han, hbn, comp]
    simp
  · rw [compareLd_null_left ((hnull a ha).mpr han) (mt (hnull b hb).mp hbn), han, hempty, comp,
      if_neg (not_lt_nil _), if_pos (hpos _ (hkey _ hbn))]
    rfl
  · rw [compareLd_null_right (mt (hnull a ha).mp han) ((hnull b hb).mpr hbn), hbn, hempty, comp,
      if_pos (hpos _ (hkey _ han)), if_neg (not_lt_nil _)]
    rfl
  · rw [compareLd_typed (mt (hnull a ha).mp han) (mt (hnull b hb).mp hbn) (ha.trans hb.symm), ha]
    unfold orderKey
    by_cases hint : t.IsInteger
    · rw [if_pos hint, if_pos hint, if_neg han, if_neg hbn, comp_singleton,
        compareTyped_integer hint]
    · rw [if_neg hint, if_neg hint, ← compareString_eq_comp]
      rcases ht.resolve_left hint with rfl | rfl <;> rfl

/-! ## §5. The hashes of integers. -/

/-- The number `get_hash_value` prints: a SHORT without its sign, an UNSIGNED SHORT with
one, and then as the unsigned number of 32 bits. -/
def printedNumber (type : FieldType) (data : Bytes) : Int :=
  match type with
  | .short => leAt data 0 2
  | .unsignedShort => toSigned 16 (leAt data 0 2) % 2 ^ 32
  | _ => integerAt type data

theorem FieldType.IsInteger.unitSize_pos (ht : t.IsInteger) : 0 < t.unitSize := by
  cases t <;> first | decide | exact absurd ht (by decide)

/-- An integer is hashed by its printed number. -/
theorem getHashValue_integer {d : LowData} (ht : d.type.IsInteger) (hlen : d.len ≠ 0) :
    getHashValue d = intKey (printedNumber d.type d.data) := by
  have hprint : ∀ n : Nat, printU n = printD n := fun n => by simp [printD]
  have hnull : d.type ≠ .null := by
    intro h
    rw [h] at ht
    exact absurd ht (by decide)
  have hmod : 0 ≤ toSigned 16 (leAt d.data 0 2) % 2 ^ 32 := Int.emod_nonneg _ (by decide)
  unfold getHashValue
  rw [if_neg (by simp [hlen, hnull])]
  generalize d.type = t at ht
  cases t <;> first
    | exact absurd ht (by decide)
    | simp only [hprint]
      rw [getHash_printD _ (by decide) (by decide)]
      first
        | rfl
        | rw [printedNumber, Int.toNat_of_nonneg hmod]

/-- The key of a number, which saturates at 63 bits. -/
theorem intKey_toNat (n : Int) : (intKey n).toNat =
    if n < 0 then 2 ^ 63 - 1 - min (2 ^ 63 - 1) n.natAbs
    else 2 ^ 63 + min (2 ^ 63 - 1) n.natAbs := by
  have hmin : min (2 ^ 63 - 1) (n.natAbs : Int) = ((min (2 ^ 63 - 1) n.natAbs : Nat) : Int) := by
    omega
  have hlt : min (2 ^ 63 - 1) n.natAbs < 2 ^ 63 := by omega
  unfold intKey
  rw [hmin]
  generalize min (2 ^ 63 - 1) n.natAbs = k at hlt
  have hk : (UInt64.ofInt (k : Int)).toNat = k := by
    rw [UInt64.ofInt, UInt64.toNat_ofNat']
    omega
  by_cases hn : n < 0
  · simp only [signKey, hn, decide_true, if_true, UInt64.toNat_and, UInt64.toNat_not, hk]
    have hmask : (0x7FFFFFFFFFFFFFFF : UInt64).toNat = 2 ^ 63 - 1 := by decide
    rw [hmask, Nat.and_two_pow_sub_one_eq_mod]
    have : UInt64.size = 2 ^ 64 := rfl
    omega
  · simp only [signKey, hn, decide_false, Bool.false_eq_true, if_false, UInt64.toNat_or, hk]
    have hor := Nat.two_pow_add_eq_or_of_lt hlt 1
    have hmask : (0x8000000000000000 : UInt64).toNat = 2 ^ 63 := by decide
    rw [Nat.mul_one] at hor
    rw [hmask, Nat.or_comm, hor]

/-- The hash of a number `n` is an own one, next to that of `m`. -/
abbrev HashClear (n m : Int) : Prop :=
  -(2 ^ 63 - 1) < n ∧ n ≠ -0x12801280128012 ∧ (n < 2 ^ 63 - 1 ∨ m < 2 ^ 63 - 1 ∨ n = m)

theorem intKey_clear (n m : Int) :
    ((intKey n = intKey m → n = m) ∧ intKey n ≠ 0 ∧ intKey n ≠ nullHash) ↔ HashClear n m := by
  have hn := intKey_toNat n
  have hm := intKey_toNat m
  have hnull : nullHash.toNat = 0x7FED7FED7FED7FED := by rw [nullHash_eq]; decide
  have hzero : (0 : UInt64).toNat = 0 := rfl
  rw [← UInt64.toNat_inj, ne_eq, ne_eq, ← UInt64.toNat_inj, ← UInt64.toNat_inj, hn, hm, hnull,
    hzero, HashClear]
  split_ifs <;> omega

theorem number_inj (ht : t.IsInteger) {a b : Bytes} (ha : a.length = t.unitSize)
    (hb : b.length = t.unitSize)
    (h : printedNumber t a = printedNumber t b ∨ integerAt t a = integerAt t b) : a = b := by
  have hword : ∀ (w : Nat) (data : Bytes), data.length = w → leAt data 0 w = leNat data := by
    intro w data hdata
    rw [leAt, drop_zero, take_of_length_le hdata.le]
  have hinj : leNat a = leNat b → a = b := by
    intro heq
    rw [← leBytes_leNat a, ← leBytes_leNat b, ha, hb, heq]
  have hlta := leNat_lt a
  have hltb := leNat_lt b
  rw [ha] at hlta
  rw [hb] at hltb
  refine hinj ?_
  rcases h with h | h <;> cases t <;> first
    | exact absurd ht (by decide)
    | simp only [FieldType.unitSize] at ha hb hlta hltb
      simp only [printedNumber, integerAt, signedAt, toSigned, hword _ _ ha, hword _ _ hb] at h
      (try split_ifs at h) <;> omega

/-- SHORT and UNSIGNED SHORT are printed as other numbers, which are clear as well. -/
theorem hashClear_printed (a b : Bytes) :
    HashClear (printedNumber t a) (printedNumber t b) ↔
      HashClear (integerAt t a) (integerAt t b) := by
  have hlt : ∀ data : Bytes, leAt data 0 2 < 256 ^ 2 := fun data =>
    (leNat_lt _).trans_le (Nat.pow_le_pow_right (by decide) (by simp))
  have ha := hlt a
  have hb := hlt b
  cases t <;> first
    | rfl
    | simp only [printedNumber, integerAt, signedAt, toSigned, HashClear]
      split_ifs <;> omega

/-- **When the hashes of integers are their own.**  Two values of one integer type have
different hashes, none of them 0 or the hash of NULL, exactly if the number is not one of
the two lowest of 64 bits, is not the twin of NULL, and does not saturate together with
the other one. -/
theorem integer_hashes_separate {t : FieldType} (ht : t.IsInteger) {d e : LowData}
    (hd : d.type = t ∧ d.len = t.unitSize) (he : e.type = t ∧ e.len = t.unitSize) :
    ((getHashValue d = getHashValue e → d.data = e.data) ∧ getHashValue d ≠ 0 ∧
        getHashValue d ≠ nullHash) ↔
      HashClear (integerAt t d.data) (integerAt t e.data) := by
  obtain ⟨rfl, hdlen⟩ := hd
  obtain ⟨hetype, helen⟩ := he
  have hwidth := ht.unitSize_pos
  have hdata : d.data = e.data ↔ printedNumber d.type d.data = printedNumber d.type e.data :=
    ⟨fun h => by rw [h], fun h => number_inj ht hdlen helen (.inl h)⟩
  rw [← hashClear_printed, ← intKey_clear, hdata, getHashValue_integer ht (by omega),
    getHashValue_integer (hetype ▸ ht) (by omega), hetype]

theorem integer_hashes_separate_two :
    getHashValue ⟨[97], .tiny, [5]⟩ ≠ getHashValue ⟨[97], .tiny, [251]⟩ ∧
      getHashValue ⟨[97], .tiny, [5]⟩ ≠ 0 ∧ getHashValue ⟨[97], .tiny, [5]⟩ ≠ nullHash := by
  obtain ⟨hinj, hzero, hnull⟩ := (@integer_hashes_separate .tiny (by decide) ⟨[97], .tiny, [5]⟩
    ⟨[97], .tiny, [251]⟩ ⟨rfl, rfl⟩ ⟨rfl, rfl⟩).mpr (by decide)
  exact ⟨fun h => absurd (hinj h) (by decide), hzero, hnull⟩

/-- -(2^63 - 1) and -2^63 both hash to 0, one number hashes like NULL, and the unsigned
numbers from 2^63 - 1 on have one hash. -/
theorem integer_hashes_collide :
    getHashValue ⟨[97], .longlong, [1, 0, 0, 0, 0, 0, 0, 128]⟩ = 0 ∧
    getHashValue ⟨[97], .longlong, [0, 0, 0, 0, 0, 0, 0, 128]⟩ = 0 ∧
    getHashValue ⟨[97], .longlong, [0xee, 0x7f, 0xed, 0x7f, 0xed, 0x7f, 0xed, 0xff]⟩ = nullHash ∧
    getHashValue ⟨[97], .unsignedLonglong, [0, 0, 0, 0, 0, 0, 0, 128]⟩ =
      getHashValue ⟨[97], .unsignedLonglong, [1, 0, 0, 0, 0, 0, 0, 128]⟩ := by
  refine ⟨?_, ?_, ?_, ?_⟩
  · decide +kernel
  · decide +kernel
  · decide +kernel
  · decide +kernel

end Mile.Common
