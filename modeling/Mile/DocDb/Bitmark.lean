/-
  Mile.DocDb.Bitmark
  ──────────────────
  **BIT MAPS OVER ROWS** (`storage/docdb/bitmark.c`).

  One bit a row, the first row in the highest bit of the first byte; `bitmark_query` answers 0 for
  a set bit.  The map is `row_limit / 8 + 1` bytes long.
-/
import Mile.Common.Def

namespace Mile.DocDb

open Lib Common List Function

/-! ## §1. The operations. -/

/-- `BITMAPMASK`. -/
def bitmapMask (rem : Nat) : UInt8 :=
  [0x80, 0x40, 0x20, 0x10, 0x08, 0x04, 0x02, 0x01].getD rem 0

/-- `struct bitmark_manager`: the mapped bytes and the number of rows. -/
structure Bitmark where
  rowLimit : Nat
  mem : Nat → UInt8

namespace Bitmark

/-- `BITMARK_MMAP_SIZE`. -/
def mmapSize (b : Bitmark) : Nat := b.rowLimit / 8 + 1

def bit (b : Bitmark) (docid : Nat) : Bool := b.mem (docid / 8) &&& bitmapMask (docid % 8) != 0

def setByte (b : Bitmark) (quot : Nat) (x : UInt8) : Bitmark :=
  { b with mem := update b.mem quot x }

end Bitmark

/-- `bitmark_init` on a file with the given bytes. -/
def bitmarkInit (rowLimit : Nat) (file : Nat → UInt8) : Bitmark := ⟨rowLimit, file⟩

def noFile : Nat → UInt8 := fun _ => 0

/-- `bitmark_set`. -/
def bitmarkSet (b : Bitmark) (docid : Nat) : Bitmark × Int :=
  if b.rowLimit ≤ docid then (b, ResultCode.errorExceedLimit.value)
  else if b.bit docid then (b, 0)
  else (b.setByte (docid / 8) (b.mem (docid / 8) ||| bitmapMask (docid % 8)), 0)

/-- `bitmark_clear`: 1 if the bit was set. -/
def bitmarkClear (b : Bitmark) (docid : Nat) : Bitmark × Int :=
  if b.rowLimit ≤ docid then (b, ResultCode.errorExceedLimit.value)
  else if b.bit docid then
    (b.setByte (docid / 8) (b.mem (docid / 8) &&& ~~~(bitmapMask (docid % 8))), 1)
  else (b, 0)

/-- `bitmark_query`: 0 for a set bit, 1 for a clear one. -/
def bitmarkQuery (b : Bitmark) (docid : Nat) : Int :=
  if b.rowLimit ≤ docid then ResultCode.errorExceedLimit.value
  else if b.bit docid then 0
  else 1

/-- The loop of `bitmark_recover` over the bits of one byte from `rem` on; it
does nothing when `rem` is 0. -/
def clearBitsFrom (x : UInt8) (rem : Nat) : UInt8 :=
  if rem = 0 then x
  else (List.range' rem (8 - rem)).foldl (fun x r => x &&& ~~~(bitmapMask r)) x

/-- `bitmark_recover`: clear the rows from `docid` on. -/
def bitmarkRecover (b : Bitmark) (docid : Nat) : Bitmark × Int :=
  if b.rowLimit ≤ docid then (b, ResultCode.errorExceedLimit.value)
  else
    let quot := docid / 8
    let rem := docid % 8
    let b' := b.setByte quot (clearBitsFrom (b.mem quot) rem)
    let quot' := if 0 < rem then quot + 1 else quot
    ({ b' with mem := fun q => if quot' ≤ q ∧ q < b.mmapSize then 0 else b'.mem q }, 0)

/-- The `count_map` of `bitmark_count`. -/
def countMap (nibble : Nat) : Nat :=
  [0, 1, 1, 2, 1, 2, 2, 3, 1, 2, 2, 3, 2, 3, 3, 4].getD nibble 0

/-- `bitmark_count`, one byte after the other. -/
def bitmarkCount (b : Bitmark) : Nat :=
  (List.range b.mmapSize).foldl (fun count i =>
    count + countMap (b.mem i &&& 0x0f).toNat + countMap ((b.mem i >>> 4) &&& 0x0f).toNat) 0

/-! ## §2. Bytes and masks. -/

theorem bitmapMask_bit : ∀ r < 8, ∀ s < 8,
    ((bitmapMask r).toBitVec.getLsbD (7 - s) = true ↔ s = r) := by
  decide

theorem bitmapMask_eq_twoPow : ∀ r < 8, (bitmapMask r).toBitVec = BitVec.twoPow 8 (7 - r) := by
  decide

/-- The bit of a byte under the mask `r`. -/
def byteBit (x : UInt8) (r : Nat) : Bool := x &&& bitmapMask r != 0

theorem byteBit_eq (x : UInt8) {r : Nat} (hr : r < 8) :
    byteBit x r = x.toBitVec.getLsbD (7 - r) := by
  have hand : (x &&& bitmapMask r).toBitVec =
      if x.toBitVec.getLsbD (7 - r) then BitVec.twoPow 8 (7 - r) else 0#8 := by
    rw [UInt8.toBitVec_and, bitmapMask_eq_twoPow r hr, BitVec.and_twoPow]
  have hne : BitVec.twoPow 8 (7 - r) ≠ 0#8 := by
    interval_cases r <;> decide
  have hzero : x &&& bitmapMask r = 0 ↔ (x &&& bitmapMask r).toBitVec = 0#8 :=
    ⟨fun h => by rw [h]; rfl, fun h => UInt8.toBitVec_inj.mp h⟩
  unfold byteBit
  cases hbit : x.toBitVec.getLsbD (7 - r) with
  | false =>
    rw [hbit] at hand
    simpa using hzero.mpr (by simpa using hand)
  | true =>
    rw [hbit] at hand
    have : x &&& bitmapMask r ≠ 0 := fun h => hne (by simpa using hand.symm.trans (hzero.mp h))
    simpa using this

section Masks

variable (x : UInt8) {r s : Nat}

theorem byteBit_or (hr : r < 8) (hs : s < 8) :
    byteBit (x ||| bitmapMask r) s = true ↔ s = r ∨ byteBit x s = true := by
  rw [byteBit_eq _ hs, byteBit_eq _ hs, UInt8.toBitVec_or, BitVec.getLsbD_or, Bool.or_eq_true,
    bitmapMask_bit r hr s hs, or_comm]

theorem byteBit_and_not (hr : r < 8) (hs : s < 8) :
    byteBit (x &&& ~~~(bitmapMask r)) s = true ↔ s ≠ r ∧ byteBit x s = true := by
  rw [byteBit_eq _ hs, byteBit_eq _ hs, UInt8.toBitVec_and, UInt8.toBitVec_not,
    BitVec.getLsbD_and, BitVec.getLsbD_not, decide_eq_true (by omega : 7 - s < 8), Bool.true_and,
    Bool.and_eq_true, Bool.not_eq_true', ← Bool.not_eq_true, bitmapMask_bit r hr s hs, and_comm]

theorem byteBit_clearRange (hs : s < 8) : ∀ (k start : Nat) (y : UInt8), start + k ≤ 8 →
    (byteBit ((List.range' start k).foldl (fun x r => x &&& ~~~(bitmapMask r)) y) s = true ↔
      ¬ (start ≤ s ∧ s < start + k) ∧ byteBit y s = true) := by
  intro k
  induction k with
  | zero =>
    intro start y _
    rw [range'_zero, foldl_nil]
    exact ⟨fun h => ⟨by omega, h⟩, fun h => h.2⟩
  | succ k ih =>
    intro start y hk
    rw [range'_succ, foldl_cons, ih (start + 1) _ (by omega),
      byteBit_and_not y (by omega) hs, ← and_assoc]
    refine and_congr ?_ Iff.rfl
    omega

theorem byteBit_clearBitsFrom {rem : Nat} (hrem : rem ≠ 0) (hrem8 : rem < 8) (hs : s < 8) :
    byteBit (clearBitsFrom x rem) s = true ↔ s < rem ∧ byteBit x s = true := by
  unfold clearBitsFrom
  rw [if_neg hrem, byteBit_clearRange hs _ _ _ (by omega)]
  refine and_congr ?_ Iff.rfl
  omega

end Masks

/-! ## §3. The map as a set of rows. -/

section Bits

variable (b : Bitmark) {docid : Nat}

theorem bit_eq_byteBit (i : Nat) : b.bit i = byteBit (b.mem (i / 8)) (i % 8) := rfl

@[simp] theorem bitmarkInit_noFile_bit (n i : Nat) : (bitmarkInit n noFile).bit i = false := by
  simp [Bitmark.bit, bitmarkInit, noFile]

@[simp] theorem bitmarkSet_rowLimit : (bitmarkSet b docid).1.rowLimit = b.rowLimit := by
  unfold bitmarkSet
  split_ifs <;> rfl

@[simp] theorem bitmarkClear_rowLimit : (bitmarkClear b docid).1.rowLimit = b.rowLimit := by
  unfold bitmarkClear
  split_ifs <;> rfl

@[simp] theorem bitmarkRecover_rowLimit : (bitmarkRecover b docid).1.rowLimit = b.rowLimit := by
  unfold bitmarkRecover
  split_ifs <;> rfl

theorem bitmarkQuery_eq (h : docid < b.rowLimit) :
    bitmarkQuery b docid = if b.bit docid then 0 else 1 := by
  unfold bitmarkQuery
  rw [if_neg (by omega)]

theorem bit_setByte (quot : Nat) (x : UInt8) (i : Nat) :
    (b.setByte quot x).bit i = if i / 8 = quot then byteBit x (i % 8) else b.bit i := by
  simp only [bit_eq_byteBit, Bitmark.setByte]
  split_ifs with h
  · rw [h, update_self]
  · rw [update_of_ne h]

variable (h : docid < b.rowLimit)

include h

/-- `bitmark_set` sets one bit. -/
theorem bit_set (i : Nat) : (bitmarkSet b docid).1.bit i = true ↔ i = docid ∨ b.bit i = true := by
  unfold bitmarkSet
  rw [if_neg (by omega)]
  split_ifs with hbit
  · refine ⟨.inr, ?_⟩
    rintro (rfl | hi)
    · exact hbit
    · exact hi
  · rw [bit_setByte]
    split_ifs with hq
    · rw [byteBit_or _ (Nat.mod_lt _ (by omega)) (Nat.mod_lt _ (by omega)), ← hq, ← bit_eq_byteBit]
      refine or_congr ?_ Iff.rfl
      omega
    · have : i ≠ docid := by
        rintro rfl
        exact hq rfl
      simp [this]

/-- `bitmark_clear` clears one bit. -/
theorem bit_clear (i : Nat) :
    (bitmarkClear b docid).1.bit i = true ↔ i ≠ docid ∧ b.bit i = true := by
  unfold bitmarkClear
  rw [if_neg (by omega)]
  split_ifs with hbit
  · rw [bit_setByte]
    split_ifs with hq
    · rw [byteBit_and_not _ (Nat.mod_lt _ (by omega)) (Nat.mod_lt _ (by omega)), ← hq,
        ← bit_eq_byteBit]
      refine and_congr ?_ Iff.rfl
      omega
    · have : i ≠ docid := by
        rintro rfl
        exact hq rfl
      simp [this]
  · refine ⟨fun hi => ⟨?_, hi⟩, And.right⟩
    rintro rfl
    exact hbit hi

theorem bitmarkClear_ret : (bitmarkClear b docid).2 = if b.bit docid then 1 else 0 := by
  unfold bitmarkClear
  rw [if_neg (by omega)]
  split_ifs <;> rfl

/-- **`bitmark_recover` keeps the rows before `docid`**, within the map. -/
theorem bit_recover {i : Nat} (hi : i < 8 * b.mmapSize) :
    (bitmarkRecover b docid).1.bit i = true ↔ i < docid ∧ b.bit i = true := by
  have hbound : i / 8 < b.mmapSize := by omega
  have hmod : i % 8 < 8 := Nat.mod_lt _ (by omega)
  have hzero : ∀ r, byteBit 0 r = false := fun r => by simp [byteBit]
  unfold bitmarkRecover
  rw [if_neg (by omega)]
  simp only [bit_eq_byteBit, Bitmark.setByte, hbound, and_true]
  by_cases hrem : docid % 8 = 0
  · -- the byte of `docid` is cleared as a whole
    rw [if_neg (by omega : ¬ 0 < docid % 8)]
    split_ifs with hlow
    · rw [hzero]
      exact ⟨fun hf => (nomatch hf), fun hlt => by omega⟩
    · rw [update_of_ne (by omega)]
      exact ⟨fun hbit => ⟨by omega, hbit⟩, And.right⟩
  · rw [if_pos (by omega : 0 < docid % 8)]
    split_ifs with hlow
    · rw [hzero]
      exact ⟨fun hf => (nomatch hf), fun hlt => by omega⟩
    · by_cases hq : i / 8 = docid / 8
      · rw [hq, update_self, byteBit_clearBitsFrom _ hrem (Nat.mod_lt _ (by omega)) hmod]
        refine and_congr ?_ Iff.rfl
        omega
      · rw [update_of_ne hq]
        exact ⟨fun hbit => ⟨by omega, hbit⟩, And.right⟩

end Bits

/-! ## §4. Counting. -/

theorem countMap_byte (x : UInt8) :
    countMap (x &&& 0x0f).toNat + countMap ((x >>> 4) &&& 0x0f).toNat =
      Nat.count (fun r => byteBit x r = true) 8 := by
  have hall : ∀ n : Fin 256,
      countMap (UInt8.ofFin n &&& 0x0f).toNat + countMap ((UInt8.ofFin n >>> 4) &&& 0x0f).toNat =
        Nat.count (fun r => byteBit (UInt8.ofFin n) r = true) 8 := by
    decide +kernel
  exact hall x.toFin

def Bitmark.rows (b : Bitmark) : Finset Nat :=
  (Finset.range (8 * b.mmapSize)).filter fun i => b.bit i = true

/-- `bitmark_count` counts the rows. -/
theorem bitmarkCount_eq (b : Bitmark) : bitmarkCount b = b.rows.card := by
  have hloop : ∀ k, (List.range k).foldl (fun count i =>
      count + countMap (b.mem i &&& 0x0f).toNat + countMap ((b.mem i >>> 4) &&& 0x0f).toNat) 0 =
        Nat.count (fun i => b.bit i = true) (8 * k) := by
    intro k
    induction k with
    | zero => rfl
    | succ k ih =>
      rw [range_succ, foldl_concat, ih, Nat.mul_succ, Nat.count_add, Nat.add_assoc, countMap_byte]
      congr 1
      -- the bits of byte `k` are the eight rows from `8 * k` on
      simp only [Nat.count_eq_card_filter_range]
      congr 1
      refine Finset.filter_congr fun r hr => ?_
      have hr8 := Finset.mem_range.mp hr
      rw [bit_eq_byteBit, show (8 * k + r) / 8 = k by omega, show (8 * k + r) % 8 = r by omega]
  unfold Bitmark.rows
  rw [← Nat.count_eq_card_filter_range]
  exact hloop b.mmapSize

section Rows

variable (b : Bitmark) {docid : Nat}

theorem Bitmark.mem_rows {i : Nat} : i ∈ b.rows ↔ i < 8 * b.mmapSize ∧ b.bit i = true := by
  simp [Bitmark.rows]

theorem Bitmark.lt_mmap_of_lt {i : Nat} (h : i < b.rowLimit) : i < 8 * b.mmapSize := by
  unfold Bitmark.mmapSize
  omega

@[simp] theorem bitmarkInit_noFile_rows (n : Nat) : (bitmarkInit n noFile).rows = ∅ := by
  ext i
  simp [Bitmark.mem_rows]

theorem rows_set (h : docid < b.rowLimit) : (bitmarkSet b docid).1.rows = insert docid b.rows := by
  have hlt := b.lt_mmap_of_lt h
  ext i
  rw [Finset.mem_insert, Bitmark.mem_rows, Bitmark.mem_rows, bit_set b h]
  have hsize : (bitmarkSet b docid).1.mmapSize = b.mmapSize := by
    unfold Bitmark.mmapSize
    rw [bitmarkSet_rowLimit]
  rw [hsize]
  constructor
  · rintro ⟨hi, rfl | hbit⟩
    · exact .inl rfl
    · exact .inr ⟨hi, hbit⟩
  · rintro (rfl | ⟨hi, hbit⟩)
    · exact ⟨hlt, .inl rfl⟩
    · exact ⟨hi, .inr hbit⟩

theorem rows_clear (h : docid < b.rowLimit) :
    (bitmarkClear b docid).1.rows = b.rows.erase docid := by
  ext i
  rw [Finset.mem_erase, Bitmark.mem_rows, Bitmark.mem_rows, bit_clear b h]
  have hsize : (bitmarkClear b docid).1.mmapSize = b.mmapSize := by
    unfold Bitmark.mmapSize
    rw [bitmarkClear_rowLimit]
  rw [hsize]
  exact ⟨fun ⟨hi, hne, hbit⟩ => ⟨hne, hi, hbit⟩, fun ⟨hne, hi, hbit⟩ => ⟨hi, hne, hbit⟩⟩

theorem rows_recover (h : docid < b.rowLimit) :
    (bitmarkRecover b docid).1.rows = b.rows.filter (· < docid) := by
  ext i
  rw [Finset.mem_filter, Bitmark.mem_rows, Bitmark.mem_rows]
  have hsize : (bitmarkRecover b docid).1.mmapSize = b.mmapSize := by
    unfold Bitmark.mmapSize
    rw [bitmarkRecover_rowLimit]
  rw [hsize]
  constructor
  · rintro ⟨hi, hbit⟩
    obtain ⟨hlt, hold⟩ := (bit_recover b h hi).mp hbit
    exact ⟨⟨hi, hold⟩, hlt⟩
  · rintro ⟨⟨hi, hold⟩, hlt⟩
    exact ⟨hi, (bit_recover b h hi).mpr ⟨hlt, hold⟩⟩

end Rows

end Mile.DocDb
