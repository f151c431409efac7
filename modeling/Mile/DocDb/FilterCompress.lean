/-
  Mile.DocDb.FilterCompress
  ─────────────────────────
  **COMPRESSED FILTER INDEXES** (`storage/docdb/filtercompress.c`).

  `filter_compress_load` writes the rows of a column store in one of three encodings:

    • type 2, for two distinct values: one bit a row, a dictionary of two,
    • type 1, when that is smaller: a dictionary and a number a row, -1 for NULL,
    • type 0: the cells themselves, cut to `unit_size` bytes.
-/
import Mile.DocDb.Storage
import Mile.Lib.Numbering
import Mile.Lib.Run

namespace Mile.DocDb

open Lib Common List Function

/-! ## §1. The probing table. -/

/-- `struct bucket_entry`. -/
structure BucketEntry where
  value : Nat
  pos : Int

/-- The value in a bucket; `free` is the `pos` of a free bucket. -/
def bucketKey (free : Int) (bucket : Nat → BucketEntry) (s : Nat) : Option Nat :=
  if (bucket s).pos = free then none else some (bucket s).value

/-- `value % n_row`. -/
def bucketHome (nRow : Nat) : Option Nat → Nat
  | none => 0
  | some value => value % nRow

/-- The bucket the loop `do … while(pos != value%n_row)` ends at. -/
def findBucket (nRow : Nat) (free : Int) (bucket : Nat → BucketEntry) (value : Nat) : Option Nat :=
  findSlot nRow none (bucketHome nRow) (bucketKey free bucket) nRow (some value)

/-! ## §2. Loading. -/

/-- The variables of the first pass. -/
structure CountState where
  bucket : Nat → BucketEntry
  nValue : Nat
  nNull : Nat

/-- One round of the first pass; `none` is "bucket is too small". -/
def countRow (st : Storage) (c : CountState) (i : Nat) : Option CountState :=
  if bitmarkQuery st.nullBitmark i = 1 then some { c with nNull := c.nNull + 1 }
  else
    let value := leNat (st.mem i)
    match findBucket st.rowLimit 0 c.bucket value with
    | none => none
    | some s =>
      if (c.bucket s).pos = 0 then
        some { c with
          bucket := update c.bucket s ⟨value, 1⟩
          nValue := c.nValue + 1 }
      else some c

/-- The first pass of `filter_compress_load`. -/
def countRows (st : Storage) : Option CountState :=
  (List.range st.rowLimit).foldlM (countRow st) ⟨fun _ => ⟨0, 0⟩, 0, 0⟩

/-- The variables of the second pass: `data` is the dictionary, one cell of
`unit_size` bytes a value, and `marks` is what is written for each row. -/
structure AssignState (M : Type) where
  bucket : Nat → BucketEntry
  nValue : Nat
  data : Nat → Nat
  marks : M

section Assign

variable {M : Type} (st : Storage) (unitSize : Nat) (onNull : M → Nat → M)
  (onPos : M → Nat → Int → M)

/-- One round of the second pass.  The loops of types 1 and 2 differ in what
they write for a NULL row (`onNull`) and for a row whose value has the number
`pos` (`onPos`). -/
def assignRow (a : AssignState M) (i : Nat) : Option (AssignState M) :=
  if bitmarkQuery st.nullBitmark i = 1 then some { a with marks := onNull a.marks i }
  else
    let value := leNat (st.mem i)
    match findBucket st.rowLimit (-1) a.bucket value with
    | none => none
    | some s =>
      if (a.bucket s).pos = -1 then
        some {
          bucket := update a.bucket s ⟨value, a.nValue⟩
          nValue := a.nValue + 1
          data := update a.data a.nValue (value % 256 ^ unitSize)
          marks := onPos a.marks i a.nValue }
      else some { a with marks := onPos a.marks i (a.bucket s).pos }

/-- The second pass of `filter_compress_load`, on new files. -/
def assignRows (marks : M) : Option (AssignState M) :=
  (List.range st.rowLimit).foldlM (assignRow st unitSize onNull onPos)
    ⟨fun _ => ⟨0, -1⟩, 0, fun _ => 0, marks⟩

end Assign

/-- The files of a compressed index.  A file that does not exist counts as
zeros, since `get_mmap_memory` creates it so. -/
structure FilterFiles where
  nRow : Nat
  nValue : Nat
  unitSize : Nat
  idxSize : Nat
  indexType : Nat
  data : Nat → Nat
  index : Nat → Nat
  bitmapIndex : Nat → UInt8
  nullMark : Nat → UInt8

def noFilterFiles : FilterFiles :=
  ⟨0, 0, 0, 0, 0, fun _ => 0, fun _ => 0, noFile, noFile⟩

/-- `struct filter_compress_manager`.  `dataMmap` has a cell of `unit_size`
bytes for each entry, `indexMmap` one of `idx_size` bytes; a mapping that was
not made is all zeros here and is never read.  `bitmark` is a pointer the
queries compare with NULL. -/
structure FilterCompress where
  nRow : Nat
  nValue : Nat
  unitSize : Nat
  idxSize : Nat
  indexType : Nat
  dataMmap : Nat → Nat
  indexMmap : Nat → Nat
  bitmapIndex : Bitmark
  bitmark : Option Bitmark

def emptyFilterCompress : FilterCompress :=
  ⟨0, 0, 0, 0, 0, fun _ => 0, fun _ => 0, bitmarkInit 0 noFile, none⟩

/-- `filter_compress_init`. -/
def filterCompressInit (files : FilterFiles) : FilterCompress :=
  if files.nRow = 0 then emptyFilterCompress
  else
    let fc : FilterCompress := { emptyFilterCompress with
      nRow := files.nRow
      nValue := files.nValue
      unitSize := files.unitSize
      idxSize := files.idxSize
      indexType := files.indexType }
    if files.indexType = 0 then
      { fc with
        dataMmap := if files.unitSize ≠ 0 then files.data else fc.dataMmap
        bitmark := some (bitmarkInit files.nRow files.nullMark) }
    else if files.indexType = 1 then
      { fc with
        dataMmap := files.data
        indexMmap := files.index }
    else
      { fc with
        dataMmap := files.data
        bitmapIndex := bitmarkInit files.nRow files.bitmapIndex
        bitmark := some (bitmarkInit files.nRow files.nullMark) }

/-- What `filter_compress_load` returns: NULL, `(filter_compress_manager*)0x1`
when compression does not pay, or a manager. -/
inductive LoadResult where
  | null
  | notNeeded
  | loaded (fc : FilterCompress)

def idxSizeFor (nValue : Nat) : Nat :=
  if nValue < 128 then 1 else if nValue < 32768 then 2 else 4

/-- The low `k` bytes of an integer, as `memcpy` takes them. -/
def lowBytes (k : Nat) (x : Int) : Nat := (x % 256 ^ k).toNat

/-- The NULL map `filter_compress` with the bytes of the column store's. -/
def copyNullMark (st : Storage) (files : FilterFiles) : Bitmark :=
  ⟨st.rowLimit, fun q =>
    if q < st.rowLimit / 8 + 1 then st.nullBitmark.mem q else files.nullMark q⟩

/-- Type 2: the row's bit is set for the value with the number 1.  The NULL map
is only written when there is a NULL. -/
def loadBitmap (st : Storage) (unitSize idxSize nNull : Nat) (files : FilterFiles) : LoadResult :=
  match assignRows st unitSize (fun b _ => b)
      (fun b i pos => if pos = 1 then (bitmarkSet b i).1 else b)
      (bitmarkInit st.rowLimit files.bitmapIndex) with
  | none => .null
  | some a =>
    .loaded { emptyFilterCompress with
      nRow := st.rowLimit
      nValue := a.nValue
      unitSize := unitSize
      idxSize := idxSize
      indexType := 2
      dataMmap := a.data
      bitmapIndex := a.marks
      bitmark := if nNull ≠ 0 then some (copyNullMark st files) else none }

def loadIndex (st : Storage) (unitSize idxSize : Nat) : LoadResult :=
  match assignRows st unitSize
      (fun index i => update index i (lowBytes idxSize (-1)))
      (fun index i pos => update index i (lowBytes idxSize pos))
      (fun _ => 0) with
  | none => .null
  | some a =>
    .loaded { emptyFilterCompress with
      nRow := st.rowLimit
      nValue := a.nValue
      unitSize := unitSize
      idxSize := idxSize
      indexType := 1
      dataMmap := a.data
      indexMmap := a.marks }

def loadCells (st : Storage) (unitSize idxSize nValue : Nat) (files : FilterFiles) : LoadResult :=
  .loaded { emptyFilterCompress with
    nRow := st.rowLimit
    nValue := nValue
    unitSize := unitSize
    idxSize := idxSize
    indexType := 0
    dataMmap :=
      if unitSize ≠ 0 then
        (List.range st.rowLimit).foldl
          (fun data i => update data i (leNat (st.mem i) % 256 ^ unitSize)) (fun _ => 0)
      else fun _ => 0
    bitmark := some (copyNullMark st files) }

/-- `filter_compress_load`.  It removes the old files first, but not the two
bit maps `bitmap_index` and `filter_compress`. -/
def filterCompressLoad (st : Storage) (unitSize : Nat) (files : FilterFiles) : LoadResult :=
  match countRows st with
  | none => .null
  | some c =>
    let s0 := (st.rowLimit / 8 + 1 + st.rowLimit * unitSize) % 2 ^ 32
    let idxSize := idxSizeFor c.nValue
    let s1 := (st.rowLimit * idxSize + c.nValue * unitSize) % 2 ^ 32
    if c.nValue = 2 then loadBitmap st unitSize idxSize c.nNull files
    else if s1 < s0 then loadIndex st unitSize idxSize
    else if unitSize < valueSize then loadCells st unitSize idxSize c.nValue files
    else .notNeeded

/-! ## §3. Queries and release. -/

/-- `bitmark != NULL && bitmark_query(bitmark, docid) == 1`; type 0 always has
the map. -/
def markedNull (bitmark : Option Bitmark) (docid : Nat) : Bool :=
  match bitmark with
  | some b => bitmarkQuery b docid = 1
  | none => false

/-- `filter_compress_query`: the empty byte string stands for a result of
length 0.  An index entry is read as a signed number of `idx_size` bytes. -/
def filterCompressQuery (fc : FilterCompress) (docid : Nat) : Bytes :=
  if fc.indexType = 2 then
    if markedNull fc.bitmark docid then []
    else
      let pos := bitmarkQuery fc.bitmapIndex docid
      if pos < 0 then []
      else leBytes fc.unitSize (fc.dataMmap (if pos = 0 then 1 else 0))
  else if fc.indexType = 1 then
    let pos := Int.bmod (fc.indexMmap docid) (256 ^ fc.idxSize)
    if pos = -1 then []
    else leBytes fc.unitSize (fc.dataMmap pos.toNat)
  else
    if markedNull fc.bitmark docid then []
    else leBytes fc.unitSize (fc.dataMmap docid)

/-- `filter_compress_release`: the files have what was mapped. -/
def filterCompressRelease (fc : FilterCompress) (files : FilterFiles) : FilterFiles where
  nRow := fc.nRow
  nValue := fc.nValue
  unitSize := fc.unitSize
  idxSize := fc.idxSize
  indexType := fc.indexType
  data := fc.dataMmap
  index := fc.indexMmap
  bitmapIndex := if fc.indexType = 2 then fc.bitmapIndex.mem else files.bitmapIndex
  nullMark := match fc.bitmark with
    | some b => b.mem
    | none => files.nullMark

section Query

variable {fc : FilterCompress} (docid : Nat)

theorem filterCompressQuery_bitmap (h : fc.indexType = 2) :
    filterCompressQuery fc docid =
      if markedNull fc.bitmark docid then []
      else if bitmarkQuery fc.bitmapIndex docid < 0 then []
      else leBytes fc.unitSize
        (fc.dataMmap (if bitmarkQuery fc.bitmapIndex docid = 0 then 1 else 0)) :=
  if_pos h

theorem filterCompressQuery_index (h : fc.indexType = 1) :
    filterCompressQuery fc docid =
      if Int.bmod (fc.indexMmap docid) (256 ^ fc.idxSize) = -1 then []
      else leBytes fc.unitSize
        (fc.dataMmap (Int.bmod (fc.indexMmap docid) (256 ^ fc.idxSize)).toNat) := by
  unfold filterCompressQuery
  rw [if_neg (by omega), if_pos h]

theorem filterCompressQuery_cells (h : fc.indexType = 0) :
    filterCompressQuery fc docid =
      if markedNull fc.bitmark docid then [] else leBytes fc.unitSize (fc.dataMmap docid) := by
  unfold filterCompressQuery
  rw [if_neg (by omega), if_neg (by omega)]

end Query

/-! ## §4. The values of the rows. -/

/-- The values of the first `i` rows, without the NULLs. -/
def Storage.values (st : Storage) (i : Nat) : List Nat := (List.range i).filterMap st.row

def Storage.distinctValues (st : Storage) : List Nat := distinct (st.values st.rowLimit)

/-- The number of NULL rows among the first `i`. -/
def Storage.nullCount (st : Storage) (i : Nat) : Nat :=
  (List.range i).countP fun j => (st.row j).isNone

section Values

variable (st : Storage)

theorem Storage.values_succ (i : Nat) : st.values (i + 1) = st.values i ++ (st.row i).toList := by
  unfold Storage.values
  rw [range_succ, filterMap_append]
  cases h : st.row i <;> simp [h]

theorem Storage.values_length_le (i : Nat) : (st.values i).length ≤ i := by
  have h := length_filterMap_le st.row (List.range i)
  rwa [length_range] at h

theorem Storage.nullCount_succ (i : Nat) :
    st.nullCount (i + 1) = st.nullCount i + if st.row i = none then 1 else 0 := by
  unfold Storage.nullCount
  rw [range_succ, countP_append]
  cases h : st.row i <;> simp [h]

theorem Storage.nullCount_eq_zero :
    st.nullCount st.rowLimit = 0 ↔ ∀ i < st.rowLimit, st.row i ≠ none := by
  unfold Storage.nullCount
  rw [countP_eq_zero]
  simp only [mem_range, Option.isNone_iff_eq_none]

theorem Storage.values_prefix {i : Nat} (hi : i ≤ st.rowLimit) :
    distinct (st.values i) <+: st.distinctValues := by
  obtain ⟨k, hk⟩ := Nat.exists_eq_add_of_le hi
  unfold Storage.distinctValues Storage.values
  rw [hk, range_add, filterMap_append]
  exact distinct_prefix _ _

theorem Storage.mem_distinctValues {v : Nat} :
    v ∈ st.distinctValues ↔ ∃ i < st.rowLimit, st.row i = some v := by
  unfold Storage.distinctValues Storage.values
  rw [mem_distinct, mem_filterMap]
  simp [mem_range]

theorem Storage.distinctValues_length_le : st.distinctValues.length ≤ st.rowLimit :=
  Nat.le_trans (distinct_length_le _) (st.values_length_le _)

theorem Storage.bucketHome_lt (k : Option Nat) : bucketHome st.rowLimit k < st.rowLimit := by
  have hpos : 0 < st.rowLimit := st.limit.rows_pos
  cases k with
  | none => exact hpos
  | some v => exact Nat.mod_lt v hpos

theorem Storage.idxOf_distinctValues {i k v : Nat} (hi : i ≤ st.rowLimit)
    (hk : (distinct (st.values i))[k]? = some v) : st.distinctValues.idxOf v = k := by
  obtain ⟨t, ht⟩ := st.values_prefix hi
  obtain ⟨hlt, hget⟩ := List.getElem?_eq_some_iff.mp hk
  have hlt' : k < st.distinctValues.length := by
    rw [← ht, length_append]
    omega
  have hfull : st.distinctValues[k] = v := by
    simp only [← ht]
    rw [getElem_append_left hlt, hget]
  rw [← hfull]
  exact (nodup_distinct _).idxOf_getElem k hlt'

end Values

/-! ## §5. The two passes. -/

theorem bucketKey_update {free : Int} (bucket : Nat → BucketEntry) (s value : Nat) {pos : Int}
    (h : pos ≠ free) :
    bucketKey free (update bucket s ⟨value, pos⟩) =
      update (bucketKey free bucket) s (some value) := by
  funext t
  unfold bucketKey
  by_cases ht : t = s
  · subst ht
    simp [h]
  · simp [update_of_ne ht]

section Count

variable (st : Storage)

/-- What a pass finds at row `i` when its table numbers the values before. -/
theorem row_cases {i : Nat} (hi : i < st.rowLimit) {free : Int} {bucket : Nat → BucketEntry}
    {pos : Nat → Nat} (hnum : Numbered st.rowLimit (bucketHome st.rowLimit) (bucketKey free bucket)
      pos (distinct (st.values i))) :
    (bitmarkQuery st.nullBitmark i = 1 ∧ st.row i = none ∧ st.values (i + 1) = st.values i) ∨
    ∃ v s, st.row i = some v ∧ bitmarkQuery st.nullBitmark i ≠ 1 ∧ leNat (st.mem i) = v ∧
      findBucket st.rowLimit free bucket v = some s ∧
      if (bucket s).pos = free then
        distinct (st.values (i + 1)) = distinct (st.values i) ++ [v] ∧
          ∀ p ≠ free, Numbered st.rowLimit (bucketHome st.rowLimit)
            (bucketKey free (update bucket s ⟨v, p⟩))
            (update pos s (distinct (st.values i)).length) (distinct (st.values (i + 1)))
      else
        distinct (st.values (i + 1)) = distinct (st.values i) ∧
          (distinct (st.values i))[pos s]? = some v := by
  cases hrow : st.row i with
  | none =>
    exact .inl ⟨(st.query_eq_one_iff hi).mpr hrow, rfl, by simp [st.values_succ, hrow]⟩
  | some v =>
    have hquery : bitmarkQuery st.nullBitmark i ≠ 1 := by
      rw [Ne, st.query_eq_one_iff hi, hrow]
      exact Option.some_ne_none v
    have hnext : distinct (st.values (i + 1)) = addNew (distinct (st.values i)) v := by
      rw [st.values_succ, hrow]
      exact distinct_concat _ v
    by_cases hmem : v ∈ distinct (st.values i)
    · -- the value has its number already
      obtain ⟨s, -, hfind, hkey, hpos⟩ := hnum.find_mem st.bucketHome_lt hmem
      refine .inr ⟨v, s, rfl, hquery, (Storage.row_eq_some.mp hrow).2, hfind, ?_⟩
      rw [if_neg fun h => by simp [bucketKey, h] at hkey, hnext, addNew_of_mem hmem]
      exact ⟨rfl, hpos⟩
    · -- the value gets the next number
      have hroom : (distinct (st.values i)).length < st.rowLimit :=
        (distinct_length_le _).trans_lt ((st.values_length_le i).trans_lt hi)
      obtain ⟨s, -, hfind, hfree⟩ := hnum.find_new st.bucketHome_lt hmem hroom
      refine .inr ⟨v, s, rfl, hquery, (Storage.row_eq_some.mp hrow).2, hfind, ?_⟩
      rw [if_pos (by by_contra h; simp [bucketKey, h] at hfree), hnext, addNew_of_notMem hmem]
      refine ⟨rfl, fun p hp => ?_⟩
      rw [bucketKey_update bucket s v hp]
      exact hnum.add st.bucketHome_lt hfind hfree

/-- After `i` rounds of the first pass the table holds the values so far. -/
structure CountInv (i : Nat) (c : CountState) : Prop where
  numbered : ∃ pos, Numbered st.rowLimit (bucketHome st.rowLimit) (bucketKey 0 c.bucket) pos
    (distinct (st.values i))
  nValue : c.nValue = (distinct (st.values i)).length
  nNull : c.nNull = st.nullCount i

/-- One row of the counting pass. -/
theorem CountInv.step {i : Nat} {c : CountState} (hi : i < st.rowLimit) (h : CountInv st i c) :
    ∃ c', countRow st c i = some c' ∧ CountInv st (i + 1) c' := by
  obtain ⟨⟨pos, hnum⟩, hval, hnull⟩ := h
  unfold countRow
  rcases row_cases st hi hnum with ⟨hquery, hrow, hsame⟩ | ⟨v, s, hrow, hquery, hcell, hfind, hslot⟩
  · rw [if_pos hquery]
    refine ⟨_, rfl, ⟨⟨pos, ?_⟩, ?_, ?_⟩⟩
    · rwa [hsame]
    · rwa [hsame]
    · show c.nNull + 1 = st.nullCount (i + 1)
      rw [st.nullCount_succ, hrow, hnull, if_pos rfl]
  · have hnone : st.nullCount (i + 1) = st.nullCount i := by simp [st.nullCount_succ, hrow]
    rw [if_neg hquery, hcell]
    simp only [hfind]
    split_ifs at hslot ⊢ with hpos
    · obtain ⟨hnext, hadd⟩ := hslot
      refine ⟨_, rfl, ⟨⟨_, hadd 1 (by decide)⟩, ?_, hnull.trans hnone.symm⟩⟩
      show c.nValue + 1 = _
      rw [hnext, hval, length_append, length_singleton]
    · rw [← hslot.1] at hval hnum
      exact ⟨c, rfl, ⟨⟨pos, hnum⟩, hval, hnull.trans hnone.symm⟩⟩

theorem countRows_eq :
    ∃ c, countRows st = some c ∧ c.nValue = st.distinctValues.length ∧
      c.nNull = st.nullCount st.rowLimit := by
  have hinit : CountInv st 0 ⟨fun _ => ⟨0, 0⟩, 0, 0⟩ :=
    ⟨⟨fun _ => 0, Numbered.init _ _ _⟩, rfl, rfl⟩
  obtain ⟨c, hc, -, hval, hnull⟩ := foldlM_range_inv (fun i c hi h => CountInv.step st hi h) hinit
  exact ⟨c, hc, hval, hnull⟩

end Count

section AssignSpec

variable {M : Type} (st : Storage) (unitSize : Nat) (onNull : M → Nat → M)
  (onPos : M → Nat → Int → M)

/-- What the second pass writes for a row, in terms of the final numbers. -/
def markRow (marks : M) (i : Nat) : M :=
  match st.row i with
  | none => onNull marks i
  | some v => onPos marks i (st.distinctValues.idxOf v)

/-- After `i` rounds of the second pass. -/
structure AssignInv (marks : M) (i : Nat) (a : AssignState M) : Prop where
  numbered : Numbered st.rowLimit (bucketHome st.rowLimit) (bucketKey (-1) a.bucket)
    (fun s => (a.bucket s).pos.toNat) (distinct (st.values i))
  pos_nonneg : ∀ s, (a.bucket s).pos ≠ -1 → 0 ≤ (a.bucket s).pos
  nValue : a.nValue = (distinct (st.values i)).length
  data : ∀ k v, (distinct (st.values i))[k]? = some v → a.data k = v % 256 ^ unitSize
  marks : a.marks = (List.range i).foldl (markRow st onNull onPos) marks

/-- One row of the assigning pass. -/
theorem AssignInv.step {marks : M} {i : Nat} {a : AssignState M} (hi : i < st.rowLimit)
    (h : AssignInv st unitSize onNull onPos marks i a) :
    ∃ a', assignRow st unitSize onNull onPos a i = some a' ∧
      AssignInv st unitSize onNull onPos marks (i + 1) a' := by
  obtain ⟨hnum, hnonneg, hval, hdata, hmarks⟩ := h
  have hfold : (List.range (i + 1)).foldl (markRow st onNull onPos) marks =
      markRow st onNull onPos a.marks i := by
    rw [range_succ, foldl_concat, ← hmarks]
  unfold assignRow
  rcases row_cases st hi hnum with ⟨hquery, hrow, hsame⟩ | ⟨v, s, hrow, hquery, hcell, hfind, hslot⟩
  · rw [if_pos hquery]
    refine ⟨_, rfl, ⟨?_, hnonneg, ?_, ?_, ?_⟩⟩
    · rwa [hsame]
    · rwa [hsame]
    · rwa [hsame]
    · rw [hfold, markRow, hrow]
  · rw [if_neg hquery, hcell]
    simp only [hfind]
    split_ifs at hslot ⊢ with hpos
    · obtain ⟨hnext, hadd⟩ := hslot
      rw [← hval] at hadd
      have hidx : st.distinctValues.idxOf v = a.nValue := by
        refine st.idxOf_distinctValues (i := i + 1) hi ?_
        rw [hnext, hval, getElem?_concat_length]
      refine ⟨_, rfl, ⟨?_, ?_, ?_, ?_, ?_⟩⟩
      · have hposfun : (fun t => ((update a.bucket s ⟨v, a.nValue⟩) t).pos.toNat) =
            update (fun t => (a.bucket t).pos.toNat) s a.nValue := by
          funext t
          by_cases ht : t = s
          · subst ht
            simp
          · simp [update_of_ne ht]
        rw [hposfun]
        exact hadd _ (by omega)
      · show ∀ t, ((update a.bucket s ⟨v, a.nValue⟩) t).pos ≠ -1 →
          0 ≤ ((update a.bucket s ⟨v, a.nValue⟩) t).pos
        intro t ht
        by_cases hts : t = s
        · subst hts
          simp
        · rw [update_of_ne hts] at ht ⊢
          exact hnonneg t ht
      · show a.nValue + 1 = _
        rw [hnext, hval, length_append, length_singleton]
      · intro k u hk
        rw [hnext] at hk
        show update a.data a.nValue (v % 256 ^ unitSize) k = _
        by_cases hkn : k = a.nValue
        · rw [hkn, update_self]
          rw [hkn, hval, getElem?_concat_length] at hk
          rw [Option.some.inj hk]
        · rw [update_of_ne hkn]
          refine hdata k u ?_
          have hlt := (List.getElem?_eq_some_iff.mp hk).1
          rw [length_append, length_singleton] at hlt
          rwa [getElem?_append_left (by omega)] at hk
      · rw [hfold, markRow, hrow]
        show onPos a.marks i a.nValue = onPos a.marks i _
        rw [hidx]
    · obtain ⟨hnext, hget⟩ := hslot
      have hidx : (st.distinctValues.idxOf v : Int) = (a.bucket s).pos := by
        rw [st.idxOf_distinctValues (Nat.le_of_lt hi) hget]
        exact Int.toNat_of_nonneg (hnonneg s hpos)
      refine ⟨_, rfl, ⟨?_, hnonneg, ?_, ?_, ?_⟩⟩
      · rwa [hnext]
      · rwa [hnext]
      · rwa [hnext]
      · rw [hfold, markRow, hrow]
        show onPos a.marks i (a.bucket s).pos = onPos a.marks i _
        rw [hidx]

/-- **The second pass numbers** the values: the dictionary has the low bytes of
every value at its number, and each row is marked with the number of its
value. -/
theorem assignRows_spec (marks : M) :
    ∃ a, assignRows st unitSize onNull onPos marks = some a ∧
      a.nValue = st.distinctValues.length ∧
      (∀ v ∈ st.distinctValues, a.data (st.distinctValues.idxOf v) = v % 256 ^ unitSize) ∧
      a.marks = (List.range st.rowLimit).foldl (markRow st onNull onPos) marks := by
  have hinit : AssignInv st unitSize onNull onPos marks 0
      ⟨fun _ => ⟨0, -1⟩, 0, fun _ => 0, marks⟩ := by
    refine ⟨Numbered.init _ _ _, fun s h => absurd rfl h, rfl, ?_, rfl⟩
    intro k v h
    simp [Storage.values, distinct] at h
  obtain ⟨a, ha, hinv⟩ :=
    foldlM_range_inv (fun i a hi h => AssignInv.step st unitSize onNull onPos hi h) hinit
  refine ⟨a, ha, hinv.nValue, fun v hv => hinv.data _ v ?_, hinv.marks⟩
  exact getElem?_idxOf hv

end AssignSpec

/-! ## §6. What a loaded index answers. -/

/-- A value in `unitSize` bytes; NULL is the empty byte string. -/
def cellOf (unitSize : Nat) : Option Nat → Bytes
  | none => []
  | some v => leBytes unitSize v

/-- The index answers with the low `unitSize` bytes of every row. -/
def Answers (st : Storage) (unitSize : Nat) (fc : FilterCompress) : Prop :=
  ∀ i < st.rowLimit, filterCompressQuery fc i = cellOf unitSize (st.row i)

theorem foldl_update_range {α : Type} (g : Nat → α) (f : Nat → α) (n : Nat) :
    (List.range n).foldl (fun f i => update f i (g i)) f =
      fun j => if j < n then g j else f j := by
  induction n with
  | zero => rfl
  | succ n ih =>
    rw [range_succ, foldl_concat, ih]
    funext j
    by_cases hj : j = n
    · subst hj
      simp
    · rw [update_of_ne hj]
      simp only [show j < n + 1 ↔ j < n by omega]

section Loaded

variable (st : Storage) (unitSize : Nat) (files : FilterFiles) {i : Nat}

theorem copyNullMark_bit (hi : i < st.rowLimit) :
    (copyNullMark st files).bit i = st.nullBitmark.bit i := by
  have hbyte : i / 8 < st.rowLimit / 8 + 1 := by omega
  simp only [copyNullMark, Bitmark.bit, if_pos hbyte]

theorem copyNullMark_query (hi : i < st.rowLimit) :
    bitmarkQuery (copyNullMark st files) i = 1 ↔ st.row i = none := by
  rw [bitmarkQuery_eq _ (show i < (copyNullMark st files).rowLimit from hi),
    copyNullMark_bit st files hi, Storage.row_eq_none]
  cases st.nullBitmark.bit i <;> simp

/-- The bit of a row tells which of the two values it has. -/
theorem bitmap_marks (hfresh : files.bitmapIndex = noFile) (i : Nat) (hi : i ≤ st.rowLimit) :
    let marks := (List.range i).foldl (markRow st (fun b _ => b)
      (fun b i pos => if pos = 1 then (bitmarkSet b i).1 else b))
      (bitmarkInit st.rowLimit files.bitmapIndex)
    marks.rowLimit = st.rowLimit ∧
      ∀ j, marks.bit j = true ↔
        j < i ∧ ∃ v, st.row j = some v ∧ st.distinctValues.idxOf v = 1 := by
  induction i with
  | zero => exact ⟨rfl, fun j => by simp [hfresh]⟩
  | succ i ih =>
    obtain ⟨hlimit, hbits⟩ := ih (by omega)
    simp only [range_succ, foldl_concat]
    generalize (List.range i).foldl _ _ = marks at hlimit hbits ⊢
    cases hrow : st.row i with
    | none =>
      simp only [markRow, hrow]
      refine ⟨hlimit, fun j => (hbits j).trans ?_⟩
      refine ⟨fun ⟨hj, h⟩ => ⟨by omega, h⟩, fun ⟨hj, v, hv, hidx⟩ => ⟨?_, v, hv, hidx⟩⟩
      have hne : j ≠ i := by
        rintro rfl
        rw [hrow] at hv
        cases hv
      omega
    | some v =>
      simp only [markRow, hrow]
      have hcast : (st.distinctValues.idxOf v : Int) = 1 ↔ st.distinctValues.idxOf v = 1 := by
        omega
      simp only [hcast]
      split_ifs with hone
      · refine ⟨by rw [bitmarkSet_rowLimit, hlimit], fun j => ?_⟩
        rw [bit_set marks (by omega), hbits]
        constructor
        · rintro (rfl | ⟨hj, h⟩)
          · exact ⟨by omega, v, hrow, hone⟩
          · exact ⟨by omega, h⟩
        · rintro ⟨hj, h⟩
          by_cases hji : j = i
          · exact .inl hji
          · exact .inr ⟨by omega, h⟩
      · refine ⟨hlimit, fun j => (hbits j).trans ?_⟩
        refine ⟨fun ⟨hj, h⟩ => ⟨by omega, h⟩, fun ⟨hj, u, hu, hidx⟩ => ⟨?_, u, hu, hidx⟩⟩
        have hne : j ≠ i := by
          rintro rfl
          rw [hrow] at hu
          cases hu
          exact hone hidx
        omega

theorem markedNull_copy (hi : i < st.rowLimit) :
    markedNull (some (copyNullMark st files)) i = true ↔ st.row i = none := by
  simp only [markedNull, decide_eq_true_eq]
  exact copyNullMark_query st files hi

theorem markedNull_bitmap (hi : i < st.rowLimit) :
    markedNull (if st.nullCount st.rowLimit ≠ 0 then some (copyNullMark st files) else none) i =
      true ↔ st.row i = none := by
  split_ifs with hz
  · exact markedNull_copy st files hi
  · have hzero : st.nullCount st.rowLimit = 0 := by omega
    exact ⟨fun h => (nomatch h), fun h => absurd h (st.nullCount_eq_zero.mp hzero i hi)⟩

/-- **Type 2.**  When there is no NULL row, opening the index again maps a NULL
map that was never written. -/
theorem loadBitmap_spec (hfresh : files.bitmapIndex = noFile)
    (htwo : st.distinctValues.length = 2) (idxSize : Nat) :
    ∃ fc, loadBitmap st unitSize idxSize (st.nullCount st.rowLimit) files = .loaded fc ∧
      Answers st unitSize fc ∧ fc.indexType = 2 ∧
      filterCompressInit (filterCompressRelease fc files) =
        if st.nullCount st.rowLimit ≠ 0 then fc
        else { fc with bitmark := some (bitmarkInit st.rowLimit files.nullMark) } := by
  obtain ⟨a, ha, -, hdata, hmarks⟩ := assignRows_spec st unitSize (fun b _ => b)
    (fun b i pos => if pos = 1 then (bitmarkSet b i).1 else b)
    (bitmarkInit st.rowLimit files.bitmapIndex)
  obtain ⟨hlimit, hbits⟩ := bitmap_marks st files hfresh st.rowLimit (le_refl _)
  rw [← hmarks] at hlimit hbits
  unfold loadBitmap
  rw [ha]
  refine ⟨_, rfl, ?_, rfl, ?_⟩
  · intro i hi
    rw [filterCompressQuery_bitmap i rfl]
    have hnull := markedNull_bitmap st files hi
    cases hrow : st.row i with
    | none => rw [if_pos (hnull.mpr hrow)]; rfl
    | some v =>
      rw [if_neg (mt hnull.mp (by rw [hrow]; exact Option.some_ne_none v))]
      have hmem : v ∈ st.distinctValues := st.mem_distinctValues.mpr ⟨i, hi, hrow⟩
      have hidx : st.distinctValues.idxOf v < 2 := by
        rw [← htwo]
        exact idxOf_lt_length_iff.mpr hmem
      have hbit : a.marks.bit i = true ↔ st.distinctValues.idxOf v = 1 := by
        rw [hbits i]
        refine ⟨fun ⟨_, u, hu, hone⟩ => ?_, fun hone => ⟨hi, v, hrow, hone⟩⟩
        rw [hrow] at hu
        cases hu
        exact hone
      have hpos : (if bitmarkQuery a.marks i = 0 then 1 else 0) = st.distinctValues.idxOf v := by
        rw [bitmarkQuery_eq _ (by omega)]
        by_cases hone : st.distinctValues.idxOf v = 1
        · simp [hbit.mpr hone, hone]
        · simp [Bool.eq_false_iff.mpr (mt hbit.mp hone)]
          omega
      have hnonneg : ¬ bitmarkQuery a.marks i < 0 := by
        rw [bitmarkQuery_eq _ (by omega)]
        split_ifs <;> decide
      simp only [if_neg hnonneg, hpos, hdata v hmem]
      exact leBytes_mod unitSize v
  · have hrows : st.rowLimit ≠ 0 := Nat.pos_iff_ne_zero.mp st.limit.rows_pos
    have hbitmap : bitmarkInit st.rowLimit a.marks.mem = a.marks := by
      rw [← hlimit]
      rfl
    unfold filterCompressInit filterCompressRelease
    split_ifs with hz <;> simp_all [emptyFilterCompress, copyNullMark, bitmarkInit]

theorem bmod_lowBytes {k : Nat} {x : Int} (hlo : -(256 ^ k / 2) ≤ x) (hhi : x < 256 ^ k / 2) :
    Int.bmod (lowBytes k x) (256 ^ k) = x := by
  have hpos : (0 : Int) < 256 ^ k := by positivity
  unfold lowBytes
  rw [Int.toNat_of_nonneg (Int.emod_nonneg x (by omega))]
  have hcast : ((256 ^ k : Nat) : Int) = 256 ^ k := by push_cast; rfl
  rw [← hcast, Int.emod_bmod]
  exact Int.bmod_eq_of_le (by omega) (by omega)

theorem idxSizeFor_spec {k : Nat} (h : k < st.distinctValues.length) :
    (k : Int) < 256 ^ idxSizeFor st.distinctValues.length / 2 := by
  have hlimit : valueSize * st.rowLimit < 2 ^ 32 := st.limit.mmap_lt
  rw [show valueSize = 8 from rfl] at hlimit
  have hle := st.distinctValues_length_le
  unfold idxSizeFor
  split_ifs <;> norm_num <;> omega

def Storage.entry (i : Nat) : Int :=
  match st.row i with
  | none => -1
  | some v => st.distinctValues.idxOf v

/-- Values by their numbers are read back. -/
theorem loadIndex_spec :
    ∃ fc, loadIndex st unitSize (idxSizeFor st.distinctValues.length) = .loaded fc ∧
      Answers st unitSize fc ∧ filterCompressInit (filterCompressRelease fc files) = fc := by
  generalize hs : idxSizeFor st.distinctValues.length = idxSize
  obtain ⟨a, ha, -, hdata, hmarks⟩ := assignRows_spec st unitSize
    (fun index i => update index i (lowBytes idxSize (-1)))
    (fun index i pos => update index i (lowBytes idxSize pos)) (fun _ => 0)
  have hindex : a.marks =
      fun j => if j < st.rowLimit then lowBytes idxSize (st.entry j) else 0 := by
    rw [hmarks, ← foldl_update_range]
    congr 1
    funext index i
    unfold markRow Storage.entry
    cases st.row i <;> rfl
  unfold loadIndex
  rw [ha]
  refine ⟨_, rfl, ?_, ?_⟩
  · intro i hi
    have hhalf : (1 : Int) ≤ 256 ^ idxSize / 2 := by
      rw [← hs]
      unfold idxSizeFor
      split_ifs <;> norm_num
    rw [filterCompressQuery_index i rfl]
    simp only [hindex, if_pos hi]
    unfold Storage.entry
    cases hrow : st.row i with
    | none =>
      simp only [bmod_lowBytes (k := idxSize) (x := -1) (by omega) (by omega), if_pos]
      rfl
    | some v =>
      have hmem : v ∈ st.distinctValues := st.mem_distinctValues.mpr ⟨i, hi, hrow⟩
      have hwide := idxSizeFor_spec st (idxOf_lt_length_iff.mpr hmem)
      rw [hs] at hwide
      have hne : (st.distinctValues.idxOf v : Int) ≠ -1 := by omega
      simp only [bmod_lowBytes (k := idxSize) (by omega) hwide, if_neg hne, Int.toNat_natCast,
        hdata v hmem]
      exact leBytes_mod unitSize v
  · have hrows : st.rowLimit ≠ 0 := Nat.pos_iff_ne_zero.mp st.limit.rows_pos
    unfold filterCompressInit filterCompressRelease
    simp [hrows, emptyFilterCompress]

/-- Cells that were not compressed are read back. -/
theorem loadCells_spec (idxSize nValue : Nat) :
    ∃ fc, loadCells st unitSize idxSize nValue files = .loaded fc ∧
      Answers st unitSize fc ∧ filterCompressInit (filterCompressRelease fc files) = fc := by
  unfold loadCells
  refine ⟨_, rfl, ?_, ?_⟩
  · intro i hi
    have hnull := markedNull_copy st files hi
    rw [filterCompressQuery_cells i rfl]
    cases hrow : st.row i with
    | none => rw [if_pos (hnull.mpr hrow)]; rfl
    | some v =>
      rw [if_neg (mt hnull.mp (by rw [hrow]; exact Option.some_ne_none v))]
      obtain ⟨-, hcell⟩ := Storage.row_eq_some.mp hrow
      simp only [cellOf]
      split_ifs with hunit
      · simp only [foldl_update_range, if_pos hi, hcell]
        exact leBytes_mod unitSize v
      · rw [Decidable.not_not.mp hunit]
        rfl
  · have hrows : st.rowLimit ≠ 0 := Nat.pos_iff_ne_zero.mp st.limit.rows_pos
    unfold filterCompressInit filterCompressRelease
    by_cases hunit : unitSize = 0 <;>
      simp [hrows, hunit, emptyFilterCompress, copyNullMark, bitmarkInit]

/-- **What loading does.**  Either the index is not compressed, which only
happens with whole cells; or it answers with the low bytes of every row, and
opening it again gives the same index unless there are two distinct values and
no NULL row. -/
theorem filterCompressLoad_spec (hfresh : files.bitmapIndex = noFile) :
    (filterCompressLoad st unitSize files = .notNeeded ∧ valueSize ≤ unitSize ∧
      st.distinctValues.length ≠ 2) ∨
    ∃ fc, filterCompressLoad st unitSize files = .loaded fc ∧ Answers st unitSize fc ∧
      (st.distinctValues.length = 2 → fc.indexType = 2) ∧
      filterCompressInit (filterCompressRelease fc files) =
        if st.distinctValues.length = 2 ∧ st.nullCount st.rowLimit = 0 then
          { fc with bitmark := some (bitmarkInit st.rowLimit files.nullMark) }
        else fc := by
  obtain ⟨c, hc, hval, hnull⟩ := countRows_eq st
  unfold filterCompressLoad
  rw [hc]
  simp only [hval, hnull]
  generalize hidx : idxSizeFor st.distinctValues.length = idxSize
  by_cases htwo : st.distinctValues.length = 2
  · rw [if_pos htwo]
    obtain ⟨fc, hload, hans, htype, hre⟩ := loadBitmap_spec st unitSize files hfresh htwo idxSize
    refine .inr ⟨fc, hload, hans, fun _ => htype, ?_⟩
    rw [hre]
    by_cases hz : st.nullCount st.rowLimit = 0 <;> simp [hz, htwo]
  · rw [if_neg htwo]
    have hsame : ¬ (st.distinctValues.length = 2 ∧ st.nullCount st.rowLimit = 0) :=
      fun h => htwo h.1
    simp only [if_neg hsame]
    split_ifs with hsize hunit
    · obtain ⟨fc, hload, hans, hre⟩ := loadIndex_spec st unitSize files
      rw [← hidx]
      exact .inr ⟨fc, hload, hans, fun h => absurd h htwo, hre⟩
    · obtain ⟨fc, hload, hans, hre⟩ := loadCells_spec st unitSize files idxSize
        st.distinctValues.length
      exact .inr ⟨fc, hload, hans, fun h => absurd h htwo, hre⟩
    · exact .inl ⟨rfl, by omega, htwo⟩

end Loaded

end Mile.DocDb
