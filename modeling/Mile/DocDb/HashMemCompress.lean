/-
  Mile.DocDb.HashMemCompress
  ──────────────────────────
  **THE COMPRESSED HASH INDEX** (`storage/docdb/hash_memcompress.c`).

  A table of seeks `{hash, offset, len}` in the order of the hashes, and the docids of all
  buckets, one list behind the other.  `qsort` enters as the order it leaves the bucket numbers
  in.
-/
import Mile.Lib.Bisect
import Mile.DocDb.HashIndex

namespace Mile.DocDb

open Lib Common List Function

/-! ## §1. Files and manager. -/

/-- `struct hash_seeks`; `offset` and `len` count bytes. -/
structure HashSeeks where
  hashValue : UInt64
  offset : UInt32
  len : UInt32

/-- The three files: the counts in `hash_info_compress.idx`, the seeks and the
words of the docids. -/
structure CompressFiles where
  bucketCount : UInt32
  docCount : UInt32
  index : Nat → HashSeeks
  data : Nat → UInt32

def CompressFiles.new : CompressFiles := ⟨0, 0, fun _ => ⟨0, 0, 0⟩, fun _ => 0⟩

/-- `struct hash_compress_manager`. -/
structure HashCompress where
  rowLimit : Nat
  hashMod : Nat
  bucketCount : UInt32
  docCount : UInt32
  indexMmap : Option (Nat → HashSeeks)
  dataMmap : Option (Nat → UInt32)

/-- `hash_commpress_init`: the files are mapped only if there are seeks. -/
def hashCommpressInit (rowLimit : Nat) (files : CompressFiles) : HashCompress :=
  if files.bucketCount = 0 then
    ⟨rowLimit, rowLimit + 1, files.bucketCount, files.docCount, none, none⟩
  else
    ⟨rowLimit, rowLimit + 1, files.bucketCount, files.docCount, some files.index, some files.data⟩

/-! ## §2. Load and query. -/

section Functions

variable {S : Type}

/-- `memcpy` of the first `num` rowids of a node to the byte offset `offset`. -/
def copyRowids (data : Nat → UInt32) (offset : UInt32) (p : RowidNode S) (num : Nat) :
    Nat → UInt32 := fun a =>
  if offset.toNat / 4 ≤ a ∧ a < offset.toNat / 4 + num then
    p.rowidArray (slotOf (a - offset.toNat / 4))
  else data a

def copyNodes : List (RowidNode S) → UInt32 → (Nat → UInt32) → UInt32 × (Nat → UInt32)
  | [], currentOffset, data => (currentOffset, data)
  | p :: ps, currentOffset, data =>
    copyNodes ps (currentOffset + 256 * 4) (copyRowids data currentOffset p 256)

/-- One docid list copied to `offset`: whole nodes up to the tail, then the
rest of `len` bytes from the tail. -/
def copyDocids (data : Nat → UInt32) (offset len : UInt32) (docids : RowidList S) : Nat → UInt32 :=
  let r := copyNodes (docids.nodes.take docids.tail) offset data
  match docids.nodes[docids.tail]? with
  | some p => copyRowids r.2 r.1 p ((offset + len - r.1).toNat / 4)
  | none => r.2

/-- What the loop of `hash_compress_load` changes. -/
structure LoadState where
  index : Nat → HashSeeks
  data : Nat → UInt32
  currentOffset : UInt32

/-- One round of the loop: bucket `s` goes to seek number `slot`. -/
def loadBucket (h : HashIndex) (s slot : Nat) (st : LoadState) : Option LoadState :=
  (getRowidList (S := Unit) h.doclist (h.bucket s).offset.toNat).map fun docids =>
    let len := UInt32.ofNat (4 * docids.rowidNum)
    { index := update st.index slot ⟨h.key s, st.currentOffset, len⟩
      data := copyDocids st.data st.currentOffset len docids
      currentOffset := st.currentOffset + len }

def loadLoop (h : HashIndex) : List Nat → Nat → LoadState → Option LoadState
  | [], _, st => some st
  | s :: rest, slot, st => (loadBucket h s slot st).bind (loadLoop h rest (slot + 1))

/-- `hash_compress_load`, with the bucket numbers as `qsort` leaves them: the
manager and the files. -/
def hashCompressLoad (order : List Nat) (h : HashIndex) : Option (HashCompress × CompressFiles) :=
  let c := hashCommpressInit h.limit CompressFiles.new
  let buckets := order.take c.hashMod
  let j := (buckets.takeWhile (h.key · = 0)).length
  (loadLoop h (buckets.drop j) 0 ⟨CompressFiles.new.index, CompressFiles.new.data, 0⟩).map fun st =>
    let bucketCount := UInt32.ofNat (c.hashMod - j)
    let docCount := st.currentOffset / 4
    ({ c with
        bucketCount := bucketCount, docCount := docCount
        indexMmap := some st.index, dataMmap := some st.data },
      ⟨bucketCount, docCount, st.index, st.data⟩)

/-- `(left + right + 1) / 2` in 32 bits. -/
def seekMid (left right : Nat) : Nat := (left + right + 1) % 2 ^ 32 / 2

/-- `hash_compress_query`.  The bisection looks at one seek at least, so the
pointer it starts with is not used. -/
def hashCompressQuery (c : HashCompress) (data : LowData) : Option (RowidList S) :=
  let hashValue := getHashValue data
  if c.bucketCount = 0 then some rowidListInit
  else
    match c.indexMmap, c.dataMmap with
    | some index, some words =>
      let count := c.bucketCount.toNat
      (bisect seekMid (fun i => (index i).hashValue.toNat) hashValue.toNat (count + 1) 0
          (count - 1) 0).map fun i =>
        let hseek := index i
        if hseek.hashValue ≠ hashValue then rowidListInit
        else
          rowidListBatchAdd rowidListInit
            ((List.range (hseek.len.toNat / 4)).map fun n => words (hseek.offset.toNat / 4 + n))
    | _, _ => none

end Functions

/-! ## §3. Copying one list. -/

section Copy

variable {S : Type}

/-- The nodes of a list are copied one behind the other. -/
theorem copyNodes_spec :
    ∀ (ps : List (RowidNode S)) (offset : UInt32) (data : Nat → UInt32) (w : Nat),
    offset.toNat = 4 * w → 4 * (w + 256 * ps.length) < 2 ^ 32 →
    (copyNodes ps offset data).1.toNat = 4 * (w + 256 * ps.length) ∧
      (∀ a, a < w ∨ w + 256 * ps.length ≤ a → (copyNodes ps offset data).2 a = data a) ∧
      ∀ i < 256 * ps.length, some ((copyNodes ps offset data).2 (w + i))
        = (ps[i / 256]?).map fun p => p.rowidArray (slotOf i)
  | [], offset, data, w, hoff, _ => by
    refine ⟨by simpa [copyNodes] using hoff, fun a _ => rfl, fun i hi => ?_⟩
    simp at hi
  | p :: ps, offset, data, w, hoff, hbound => by
    rw [length_cons] at hbound
    have hnext : (offset + 256 * 4).toNat = 4 * (w + 256) := by
      rw [UInt32.toNat_add, hoff]
      show (4 * w + 1024) % 2 ^ 32 = _
      omega
    obtain ⟨hcur, hsame, hcopied⟩ := copyNodes_spec ps (offset + 256 * 4)
      (copyRowids data offset p 256) (w + 256) hnext (by omega)
    have hw : offset.toNat / 4 = w := by omega
    unfold copyNodes
    refine ⟨by rw [hcur, length_cons]; omega, fun a ha => ?_, fun i hi => ?_⟩
    · rw [length_cons] at ha
      rw [hsame a (by omega)]
      unfold copyRowids
      rw [hw, if_neg (by omega)]
    · rw [length_cons] at hi
      by_cases hfirst : i < 256
      · -- a rowid of this node, which the others do not touch
        rw [hsame (w + i) (by omega)]
        unfold copyRowids
        rw [hw, if_pos (by omega), Nat.add_sub_cancel_left, Nat.div_eq_of_lt hfirst]
        rfl
      · have hslot : slotOf (i - 256) = slotOf i := by
          apply Fin.ext
          rw [slotOf_val, slotOf_val]
          omega
        have hrest := hcopied (i - 256) (by omega)
        rw [show w + 256 + (i - 256) = w + i by omega, hslot] at hrest
        rw [hrest, show i / 256 = (i - 256) / 256 + 1 by omega]
        rfl

/-- **A list copied** to word `w`: its docids stand there, and no other word
has changed. -/
theorem copyDocids_spec (data : Nat → UInt32) {docids : RowidList S} {xs : List UInt32}
    (hholds : Holds docids xs) (hshape : WellShaped docids) (hne : xs ≠ [])
    {offset len : UInt32} {w : Nat} (hoff : offset.toNat = 4 * w) (hlen : len.toNat = 4 * xs.length)
    (hbound : 4 * (w + xs.length) < 2 ^ 32) :
    (∀ a, a < w → copyDocids data offset len docids a = data a) ∧
      ∀ i < xs.length, some (copyDocids data offset len docids (w + i)) = xs[i]? := by
  have hpos : 0 < xs.length := length_pos_of_ne_nil hne
  have hnum := hholds.num
  have hnodes := hshape.nodes_length
  have htail := hshape.tail_eq
  have htake : (docids.nodes.take docids.tail).length = docids.tail := by
    rw [length_take]
    omega
  obtain ⟨hcur, hsame, hcopied⟩ := copyNodes_spec (docids.nodes.take docids.tail) offset data w hoff
    (by rw [htake]; omega)
  rw [htake] at hcur hsame hcopied
  obtain ⟨p, hp⟩ : ∃ p, docids.nodes[docids.tail]? = some p := by
    rw [getElem?_eq_getElem (by omega)]
    exact ⟨_, rfl⟩
  -- what is left for the tail node
  have hrest : (offset + len - (copyNodes (docids.nodes.take docids.tail) offset data).1).toNat / 4
      = xs.length - 256 * docids.tail := by
    rw [UInt32.toNat_sub, UInt32.toNat_add, hoff, hlen, hcur]
    omega
  have hw : (copyNodes (docids.nodes.take docids.tail) offset data).1.toNat / 4
      = w + 256 * docids.tail := by
    rw [hcur]
    omega
  unfold copyDocids
  simp only [hp]
  unfold copyRowids
  rw [hrest, hw]
  refine ⟨fun a ha => ?_, fun i hi => ?_⟩
  · rw [if_neg (by omega)]
    exact hsame a (.inl ha)
  · rw [← hholds.at_eq i hi]
    unfold RowidList.rowidAt
    by_cases hfull : i < 256 * docids.tail
    · rw [if_neg (by omega), hcopied i hfull, getElem?_take_of_lt (by omega)]
    · have hslot : slotOf (w + i - (w + 256 * docids.tail)) = slotOf i := by
        apply Fin.ext
        rw [slotOf_val, slotOf_val]
        omega
      rw [if_pos (by omega), hslot, show i / 256 = docids.tail by omega, hp]
      rfl

end Copy

/-! ## §4. Packing the buckets. -/

section Pack

variable {h : HashIndex} {docs : Nat → List UInt32} {done rest : List Nat} {st : LoadState}

/-- The seek of bucket `s` leads to its docids, which end before word `top`. -/
def SeekOf (h : HashIndex) (docs : Nat → List UInt32) (st : LoadState) (top slot s : Nat) : Prop :=
  ∃ w, w + (docs s).length ≤ top ∧
    st.index slot = ⟨h.key s, UInt32.ofNat (4 * w), UInt32.ofNat (4 * (docs s).length)⟩ ∧
    ∀ i < (docs s).length, some (st.data (w + i)) = (docs s)[i]?

/-- The seeks and docids of the buckets `done`, in this order. -/
structure Packed (h : HashIndex) (docs : Nat → List UInt32) (done : List Nat) (st : LoadState) :
    Prop where
  offset : st.currentOffset.toNat = 4 * (done.flatMap docs).length
  seek : ∀ slot s, done[slot]? = some s → SeekOf h docs st (done.flatMap docs).length slot s

theorem packed_nil (h : HashIndex) (docs : Nat → List UInt32) :
    Packed h docs [] ⟨CompressFiles.new.index, CompressFiles.new.data, 0⟩ :=
  ⟨rfl, fun _ _ hs => nomatch hs⟩

/-- One bucket is packed. -/
theorem Packed.loadBucket (hp : Packed h docs done st) {s : Nat} (hs : BucketHolds h s (docs s))
    (hk : h.key s ≠ 0) (hbound : 4 * ((done ++ [s]).flatMap docs).length < 2 ^ 32) :
    ∃ st', loadBucket h s done.length st = some st' ∧ Packed h docs (done ++ [s]) st' := by
  have hcount : ((done ++ [s]).flatMap docs).length
      = (done.flatMap docs).length + (docs s).length := by
    rw [flatMap_append, length_append, flatMap_singleton]
  rw [hcount] at hbound
  obtain ⟨r, hr, hholds, hshape⟩ := hs.getRowidList (S := Unit) hk
  have hlen : (UInt32.ofNat (4 * r.rowidNum)).toNat = 4 * (docs s).length := by
    rw [UInt32.toNat_ofNat', hholds.num]
    omega
  obtain ⟨hkeep, hcopied⟩ := copyDocids_spec st.data hholds hshape (hs.head hk).1
    hp.offset hlen hbound
  unfold DocDb.loadBucket
  rw [hr, Option.map_some]
  refine ⟨_, rfl, ?_, ?_⟩
  · show (st.currentOffset + _).toNat = _
    rw [hcount, UInt32.toNat_add, hp.offset, hlen]
    omega
  · intro slot t ht
    rw [hcount]
    by_cases hslot : slot < done.length
    · -- an earlier seek: its words lie below those just written
      rw [getElem?_append_left hslot] at ht
      obtain ⟨w, hw, hseek, hdata⟩ := hp.seek slot t ht
      refine ⟨w, by omega, ?_, fun i hi => ?_⟩
      · show update st.index done.length _ slot = _
        rw [update_of_ne (by omega)]
        exact hseek
      · rw [← hdata i hi]
        exact congrArg some (hkeep (w + i) (by omega))
    · have hlast : slot = done.length := by
        have hlt : slot < (done ++ [s]).length := List.getElem?_eq_some_iff.mp ht |>.1
        rw [length_append, length_singleton] at hlt
        omega
      subst hlast
      rw [getElem?_append_right (le_refl _), Nat.sub_self] at ht
      obtain rfl : s = t := Option.some.inj ht
      refine ⟨(done.flatMap docs).length, le_refl _, ?_, hcopied⟩
      show update st.index done.length _ done.length = _
      rw [update_self, hholds.num]
      congr 1
      rw [← hp.offset, UInt32.ofNat_toNat]

/-- All buckets are packed in order. -/
theorem Packed.loadLoop (hp : Packed h docs done st)
    (hrest : ∀ s ∈ rest, BucketHolds h s (docs s) ∧ h.key s ≠ 0)
    (hbound : 4 * ((done ++ rest).flatMap docs).length < 2 ^ 32) :
    ∃ st', loadLoop h rest done.length st = some st' ∧ Packed h docs (done ++ rest) st' := by
  induction rest generalizing done st with
  | nil =>
    rw [append_nil]
    exact ⟨st, rfl, hp⟩
  | cons s rest ih =>
    obtain ⟨hs, hk⟩ := hrest s mem_cons_self
    rw [append_cons] at hbound ⊢
    have hfirst : ((done ++ [s]).flatMap docs).length
        ≤ (((done ++ [s]) ++ rest).flatMap docs).length := by
      simp only [flatMap_append, length_append]
      omega
    obtain ⟨st₁, hstep, hp₁⟩ := hp.loadBucket hs hk (by omega)
    obtain ⟨st', hloop, hp'⟩ := ih hp₁ (fun t ht => hrest t (mem_cons_of_mem _ ht)) hbound
    refine ⟨st', ?_, hp'⟩
    unfold DocDb.loadLoop
    rw [hstep]
    rw [length_append, length_singleton] at hloop
    exact hloop

/-- A packed bucket gives its docids. -/
theorem SeekOf.words {top slot s : Nat} (hseek : SeekOf h docs st top slot s)
    (hbound : 4 * top < 2 ^ 32) :
    (st.index slot).hashValue = h.key s ∧
      (List.range ((st.index slot).len.toNat / 4)).map
        (fun n => st.data ((st.index slot).offset.toNat / 4 + n)) = docs s := by
  obtain ⟨w, hw, hindex, hdata⟩ := hseek
  rw [hindex]
  have hoff : (UInt32.ofNat (4 * w)).toNat / 4 = w := by
    rw [UInt32.toNat_ofNat']
    omega
  have hlen : (UInt32.ofNat (4 * (docs s).length)).toNat / 4 = (docs s).length := by
    rw [UInt32.toNat_ofNat']
    omega
  refine ⟨rfl, ?_⟩
  simp only [hoff, hlen]
  apply ext_getElem?
  intro i
  by_cases hi : i < (docs s).length
  · rw [getElem?_map, getElem?_range hi, ← hdata i hi]
    rfl
  · rw [getElem?_eq_none (by simpa using hi), getElem?_eq_none (by omega)]

theorem seekMid_between {l r : Nat} (hle : l ≤ r) (hr : r < 2 ^ 31) :
    l ≤ seekMid l r ∧ seekMid l r ≤ r := by
  unfold seekMid
  omega

/-- **What a query of packed files answers**: the docids of a bucket with the
hash asked for, or none if there is no such bucket. -/
theorem Packed.query {S : Type} (hp : Packed h docs done st) {c : HashCompress}
    (hcount : c.bucketCount.toNat = done.length)
    (hindex : done ≠ [] → c.indexMmap = some st.index ∧ c.dataMmap = some st.data)
    (hsorted : done.Pairwise fun a b => h.key a ≤ h.key b)
    (hbound : 4 * (done.flatMap docs).length < 2 ^ 32) (hnum : done.length < 2 ^ 31)
    (v : LowData) :
    ∃ l : RowidList S, hashCompressQuery c v = some l ∧
      ((∃ s ∈ done, h.key s = getHashValue v ∧ Holds l (docs s)) ∨
        (∀ s ∈ done, h.key s ≠ getHashValue v) ∧ Holds l []) := by
  unfold hashCompressQuery
  by_cases hnil : done = []
  · have h0 : c.bucketCount = 0 := UInt32.toNat_inj.mp (by rw [hcount, hnil]; rfl)
    simp only [if_pos h0]
    refine ⟨_, rfl, .inr ⟨fun s hs => ?_, holds_init⟩⟩
    rw [hnil] at hs
    cases hs
  · have hpos : 0 < done.length := length_pos_of_ne_nil hnil
    have hne : c.bucketCount ≠ 0 := by
      intro h0
      rw [h0] at hcount
      simp at hcount
      omega
    obtain ⟨hi, hd⟩ := hindex hnil
    simp only [if_neg hne, hi, hd, hcount]
    -- the hashes of the seeks are those of the buckets
    have hkey : ∀ i, (hlt : i < done.length) →
        (st.index i).hashValue = h.key done[i] := fun i hlt =>
      ((hp.seek i done[i] (getElem?_eq_getElem hlt)).words hbound).1
    have hmono : ∀ i j, i ≤ j → j ≤ done.length - 1 →
        (st.index i).hashValue.toNat ≤ (st.index j).hashValue.toNat := by
      intro i j hij hj
      rw [hkey i (by omega), hkey j (by omega)]
      rcases Nat.eq_or_lt_of_le hij with rfl | hlt
      · exact le_refl _
      · exact UInt64.le_iff_toNat_le.mp
          (pairwise_iff_getElem.mp hsorted i j (by omega) (by omega) hlt)
    have hmid : ∀ l r, l ≤ r → r ≤ done.length - 1 → l ≤ seekMid l r ∧ seekMid l r ≤ r :=
      fun l r hlr hr => seekMid_between hlr (by omega)
    obtain ⟨m, hm, hres, hfound⟩ := bisect_spec (k := (getHashValue v).toNat) hmid hmono
      (done.length + 1) 0 (done.length - 1) 0 (le_refl _) (Nat.zero_le _) (by omega)
      (fun i hi => by omega) (fun i hi hin => by omega)
    rw [hres, Option.map_some]
    have hmlt : m < done.length := by omega
    refine ⟨_, rfl, ?_⟩
    by_cases heq : (st.index m).hashValue = getHashValue v
    · rw [if_neg (not_not.mpr heq)]
      refine .inl ⟨done[m], getElem_mem hmlt, by rw [← hkey m hmlt]; exact heq, ?_⟩
      rw [((hp.seek m done[m] (getElem?_eq_getElem hmlt)).words hbound).2]
      exact holds_batchAdd _
    · rw [if_pos heq]
      refine .inr ⟨fun s hs hks => ?_, holds_init⟩
      obtain ⟨i, hi, rfl⟩ := getElem_of_mem hs
      rw [← hkey i hi] at hks
      have hnone := hfound.resolve_left fun hc => heq (UInt64.toNat_inj.mp hc)
      exact hnone i (by omega) (congrArg UInt64.toNat hks)

end Pack

/-! ## §5. The buckets in use. -/

/-- The order `qsort` may leave the bucket numbers in. -/
structure SortedOrder (h : HashIndex) (order : List Nat) : Prop where
  perm : order.Perm (List.range (h.hashmod + 1))
  sorted : order.Pairwise fun a b => h.key a ≤ h.key b

theorem sortedOrder_mergeSort (h : HashIndex) :
    SortedOrder h ((List.range (h.hashmod + 1)).mergeSort fun a b => h.key a ≤ h.key b) where
  perm := mergeSort_perm _ _
  sorted := by
    have hsorted := @List.pairwise_mergeSort _ (fun a b => decide (h.key a ≤ h.key b))
      (by
        intro a b c hab hbc
        simp only [decide_eq_true_eq] at hab hbc ⊢
        exact UInt64.le_trans hab hbc)
      (by
        intro a b
        simpa using UInt64.le_total (h.key a) (h.key b))
      (List.range (h.hashmod + 1))
    exact hsorted.imp fun hab => by simpa using hab

section InUse

variable {h : HashIndex} {docs : Nat → List UInt32} {order : List Nat}
  {ins : List (LowData × UInt32)} {limit : Nat}

def inUse (h : HashIndex) (order : List Nat) : List Nat := order.dropWhile (h.key · = 0)

variable {s : Nat} {e : UInt32}

/-- In order of their hashes, the free buckets come first. -/
theorem mem_inUse (hsorted : order.Pairwise fun a b => h.key a ≤ h.key b) :
    s ∈ inUse h order ↔ s ∈ order ∧ h.key s ≠ 0 := by
  unfold inUse
  induction order with
  | nil => simp
  | cons a as ih =>
    rw [pairwise_cons] at hsorted
    by_cases ha : h.key a = 0
    · rw [dropWhile_cons_of_pos (by simpa using ha), ih hsorted.2, mem_cons]
      constructor
      · rintro ⟨hs, hk⟩
        exact ⟨.inr hs, hk⟩
      · rintro ⟨rfl | hs, hk⟩
        · exact absurd ha hk
        · exact ⟨hs, hk⟩
    · rw [dropWhile_cons_of_neg (by simpa using ha)]
      refine ⟨fun hs => ⟨hs, ?_⟩, fun hs => hs.1⟩
      rcases mem_cons.mp hs with rfl | hs
      · exact ha
      · -- not smaller than a hash that is not 0
        intro h0
        have hle := hsorted.1 s hs
        rw [h0] at hle
        exact ha (UInt64.le_antisymm hle UInt64.zero_le)

theorem SortedOrder.mem_inUse (ho : SortedOrder h order) :
    s ∈ inUse h order ↔ s ≤ h.hashmod ∧ h.key s ≠ 0 := by
  rw [DocDb.mem_inUse ho.sorted, ho.perm.mem_iff, mem_range, Nat.lt_succ_iff]

theorem drop_takeWhile_length (h : HashIndex) (order : List Nat) :
    order.drop (order.takeWhile (h.key · = 0)).length = inUse h order := by
  calc order.drop (order.takeWhile (h.key · = 0)).length
      = (order.takeWhile (h.key · = 0) ++ order.dropWhile (h.key · = 0)).drop
          (order.takeWhile (h.key · = 0)).length := by rw [takeWhile_append_dropWhile]
    _ = inUse h order := drop_left ..

theorem Ascending.eq_of_docid (hasc : Ascending limit ins) {i j : LowData × UInt32} (hi : i ∈ ins)
    (hj : j ∈ ins) (heq : i.2 = j.2) : i = j := by
  have hnodup : (ins.map Prod.snd).Nodup := hasc.sorted.imp fun hlt => UInt32.ne_of_lt hlt
  exact inj_on_of_nodup_map hnodup hi hj heq

theorem mem_nullDocs : e ∈ nullDocs ins ↔ ∃ i ∈ ins, i.1.len = 0 ∧ i.2 = e := by
  unfold nullDocs
  rw [mem_reverse, mem_map]
  simp only [mem_filter, decide_eq_true_eq, and_assoc]

theorem mem_hashDocs {k : UInt64} :
    e ∈ hashDocs ins k ↔ ∃ i ∈ ins, i.1.len ≠ 0 ∧ getHashValue i.1 = k ∧ i.2 = e := by
  unfold hashDocs
  rw [mem_reverse, mem_map]
  simp only [mem_filter, decide_eq_true_eq, and_assoc]

/-- A docid stands in one bucket only. -/
theorem Indexed.disjoint (hi : Indexed h docs ins) (hasc : Ascending limit ins) {t : Nat}
    (hs : s ≤ h.hashmod) (ht : t ≤ h.hashmod) (hks : h.key s ≠ 0) (hkt : h.key t ≠ 0)
    (hes : e ∈ docs s) (het : e ∈ docs t) : s = t := by
  rcases Nat.eq_or_lt_of_le hs with rfl | hslt
  · rcases Nat.eq_or_lt_of_le ht with rfl | htlt
    · rfl
    · rw [hi.null, mem_nullDocs] at hes
      rw [hi.hash t htlt hkt, mem_hashDocs] at het
      obtain ⟨i, him, hlen, hie⟩ := hes
      obtain ⟨j, hjm, hjlen, -, hje⟩ := het
      rw [hasc.eq_of_docid him hjm (hie.trans hje.symm)] at hlen
      exact absurd hlen hjlen
  · rw [hi.hash s hslt hks, mem_hashDocs] at hes
    obtain ⟨i, him, hlen, hik, hie⟩ := hes
    rcases Nat.eq_or_lt_of_le ht with rfl | htlt
    · rw [hi.null, mem_nullDocs] at het
      obtain ⟨j, hjm, hjlen, hje⟩ := het
      rw [hasc.eq_of_docid him hjm (hie.trans hje.symm)] at hlen
      exact absurd hjlen hlen
    · rw [hi.hash t htlt hkt, mem_hashDocs] at het
      obtain ⟨j, hjm, -, hjk, hje⟩ := het
      rw [hasc.eq_of_docid him hjm (hie.trans hje.symm)] at hik
      exact hi.rep.probed.inj s t hslt htlt hks (hik.symm.trans hjk)

/-- The docids of all buckets fit the data file. -/
theorem Indexed.total_le (hi : Indexed h docs ins) (hasc : Ascending limit ins)
    (ho : SortedOrder h order) : ((inUse h order).flatMap docs).length ≤ cellBound := by
  have hnodup : ((inUse h order).flatMap docs).Nodup := by
    rw [nodup_flatMap]
    constructor
    · intro s hs
      have hchain := hi.rep.chained s (ho.mem_inUse.mp hs).1
      have hdesc := hchain.docs_desc
      rw [map_map] at hdesc
      have hid : (docs s).map (Cell.doc ∘ ownCell) = docs s := by
        simp [Function.comp_def, ownCell]
      rw [hid] at hdesc
      exact hdesc.imp fun hlt => (UInt32.ne_of_lt hlt).symm
    · have hdistinct : (inUse h order).Nodup :=
        (ho.perm.nodup_iff.mpr nodup_range).sublist (dropWhile_sublist _)
      refine hdistinct.imp_of_mem ?_
      intro s t hs ht hst e hes het
      obtain ⟨hsm, hks⟩ := ho.mem_inUse.mp hs
      obtain ⟨htm, hkt⟩ := ho.mem_inUse.mp ht
      exact hst (hi.disjoint hasc hsm htm hks hkt hes het)
  have hbelow : ((inUse h order).flatMap docs).map UInt32.toNat ⊆ List.range cellBound := by
    intro n hn
    obtain ⟨e, he, rfl⟩ := mem_map.mp hn
    obtain ⟨s, hs, hes⟩ := mem_flatMap.mp he
    exact mem_range.mpr (hi.rep.bounded s (ho.mem_inUse.mp hs).1 e hes).2
  have hnats := hnodup.map (f := UInt32.toNat) fun a b hab => UInt32.toNat_inj.mp hab
  have hlen := (hnats.subperm hbelow).length_le
  rw [length_map, length_range] at hlen
  exact hlen

theorem length_le_flatMap {l : List Nat} (hne : ∀ s ∈ l, docs s ≠ []) :
    l.length ≤ (l.flatMap docs).length := by
  induction l with
  | nil => exact Nat.zero_le _
  | cons s l ih =>
    have hpos : 0 < (docs s).length := length_pos_of_ne_nil (hne s mem_cons_self)
    have hrest := ih fun t ht => hne t (mem_cons_of_mem _ ht)
    rw [flatMap_cons, length_append, length_cons]
    omega

/-- The whole compression. -/
theorem Indexed.load (hi : Indexed h docs ins) (hasc : Ascending limit ins)
    (ho : SortedOrder h order) (hsize : h.limit = h.hashmod) :
    ∃ c files st, hashCompressLoad order h = some (c, files) ∧
      Packed h docs (inUse h order) st ∧
      c = ⟨h.limit, h.limit + 1, files.bucketCount, files.docCount, some st.index, some st.data⟩ ∧
      files.index = st.index ∧ files.data = st.data ∧
      files.bucketCount.toNat = (inUse h order).length := by
  have htotal := hi.total_le hasc ho
  have hlength : order.length = h.limit + 1 := by
    rw [ho.perm.length_eq, length_range, hsize]
  have hbuckets : ∀ s ∈ inUse h order, BucketHolds h s (docs s) ∧ h.key s ≠ 0 := fun s hs =>
    ⟨hi.rep.bucketHolds (ho.mem_inUse.mp hs).1, (ho.mem_inUse.mp hs).2⟩
  obtain ⟨st, hloop, hpacked⟩ := (packed_nil h docs).loadLoop hbuckets
    (by rw [nil_append]; unfold cellBound at htotal; omega)
  rw [nil_append] at hpacked
  have hcount : h.limit + 1 - (order.takeWhile (h.key · = 0)).length = (inUse h order).length := by
    rw [← drop_takeWhile_length, length_drop, hlength]
  have hmod := h.hashmod_lt
  unfold hashCompressLoad
  simp only [hashCommpressInit, CompressFiles.new, if_true]
  rw [take_of_length_le (by omega), drop_takeWhile_length]
  rw [show loadLoop h (inUse h order) 0 ⟨fun _ => ⟨0, 0, 0⟩, fun _ => 0, 0⟩ = some st from hloop]
  refine ⟨_, _, st, rfl, hpacked, rfl, rfl, rfl, ?_⟩
  show (UInt32.ofNat _).toNat = _
  rw [hcount, UInt32.toNat_ofNat']
  omega

end InUse

/-! ## §6. Answers. -/

section Answers

variable {S : Type} {h : HashIndex} {docs : Nat → List UInt32} {order : List Nat}
  {ins : List (LowData × UInt32)} {limit : Nat} {c : HashCompress}

def Agree (S : Type) (h : HashIndex) (c : HashCompress) (v : LowData) : Prop :=
  ∃ (r : Option (RowidList S)) (l : RowidList S) (ds : List UInt32),
    hashIndexQuery h v = some r ∧ ResultHolds r ds ∧
    hashCompressQuery c v = some l ∧ Holds l ds

/-- The values whose bucket has its hash alone: a value with the hash of NULL
does not, if it has no bytes and a value with bytes was inserted under this
hash, or the other way round. -/
abbrev Separate (ins : List (LowData × UInt32)) (v : LowData) : Prop :=
  getHashValue v = nullHash →
    if v.len = 0 then ∀ i ∈ ins, getHashValue i.1 = nullHash → i.1.len = 0
    else ∀ i ∈ ins, i.1.len ≠ 0

def PackedAnswer (S : Type) (h : HashIndex) (docs : Nat → List UInt32) (c : HashCompress)
    (v : LowData) : Prop :=
  ∃ l : RowidList S, hashCompressQuery c v = some l ∧
    ((∃ s ≤ h.hashmod, h.key s ≠ 0 ∧ h.key s = getHashValue v ∧ Holds l (docs s)) ∨
      (∀ s ≤ h.hashmod, h.key s ≠ 0 → h.key s ≠ getHashValue v) ∧ Holds l [])

/-- The packed index answers as the index does. -/
theorem Indexed.agree (hi : Indexed h docs ins) {v : LowData} (hc : PackedAnswer S h docs c v)
    (hsep : Separate ins v) : Agree S h c v := by
  obtain ⟨r, hr, hholds⟩ := hi.query (S := S) v
  obtain ⟨l, hl, hans⟩ := hc
  refine ⟨r, l, _, hr, hholds, hl, ?_⟩
  unfold Separate at hsep
  by_cases hlen : v.len = 0
  · rw [getHashValue_null hlen] at hans hsep
    rw [if_pos hlen]
    rw [if_pos hlen] at hsep
    rcases hans with ⟨s, hs, hk, hkey, hls⟩ | ⟨hnone, hnil⟩
    · rcases Nat.eq_or_lt_of_le hs with rfl | hlt
      · rw [← hi.null]
        exact hls
      · -- a value with bytes would have been inserted under the hash of NULL
        obtain ⟨e, he⟩ := exists_mem_of_ne_nil _ (hi.rep.head s hs hk).1
        rw [hi.hash s hlt hk, mem_hashDocs] at he
        obtain ⟨i, him, hilen, hik, -⟩ := he
        exact absurd (hsep rfl i him (hik.trans hkey)) hilen
    · have hnull : nullDocs ins = [] := by
        rw [← hi.null]
        by_contra hne
        have hk : h.key h.hashmod ≠ 0 := fun h0 => hne (hi.rep.empty _ (le_refl _) h0)
        exact hnone _ (le_refl _) hk (hi.rep.nullKey.resolve_left hk)
      rw [hnull]
      exact hnil
  · rw [if_neg hlen]
    rw [if_neg hlen] at hsep
    rcases hans with ⟨s, hs, hk, hkey, hls⟩ | ⟨hnone, hnil⟩
    · rw [if_neg (hkey ▸ hk)]
      rcases Nat.eq_or_lt_of_le hs with rfl | hlt
      · -- a value without bytes would have been inserted
        have hv : getHashValue v = nullHash := hkey.symm.trans (hi.rep.nullKey.resolve_left hk)
        obtain ⟨e, he⟩ := exists_mem_of_ne_nil _ (hi.rep.head _ hs hk).1
        rw [hi.null, mem_nullDocs] at he
        obtain ⟨i, him, hilen, -⟩ := he
        exact absurd hilen (hsep hv i him)
      · rw [← hkey, ← hi.hash s hlt hk]
        exact hls
    · by_cases hzero : getHashValue v = 0
      · rw [if_pos hzero]
        exact hnil
      · rw [if_neg hzero]
        have hdocs : hashDocs ins (getHashValue v) = [] := by
          by_contra hne
          obtain ⟨s, hs, hkey⟩ := hi.all _ hzero hne
          exact hnone s (Nat.le_of_lt hs) (by rw [hkey]; exact hzero) hkey
        rw [hdocs]
        exact hnil

theorem hashCompressQuery_congr {v w : LowData} (hvw : getHashValue v = getHashValue w) :
    hashCompressQuery (S := S) c v = hashCompressQuery c w := by
  unfold hashCompressQuery
  rw [hvw]

def nullTwin : LowData := ⟨[97], .longlong, [0xee, 0x7f, 0xed, 0x7f, 0xed, 0x7f, 0xed, 0xff]⟩

theorem getHashValue_nullTwin : getHashValue nullTwin = nullHash := by
  rw [getHashValue_longlong (by decide) rfl]
  decide

/-- If it does, no value clashes with NULL. -/
theorem Indexed.not_agree (hi : Indexed h docs ins) (hasc : Ascending limit ins)
    (hagree : ∀ v, Agree S h c v) : ∀ i ∈ ins, getHashValue i.1 ≠ nullHash := by
  have hanswer : ∀ v, ∃ l : RowidList S, hashCompressQuery c v = some l ∧
      Holds l (if v.len = 0 then nullDocs ins
        else if getHashValue v = 0 then [] else hashDocs ins (getHashValue v)) := by
    intro v
    obtain ⟨r, hr, hholds⟩ := hi.query (S := S) v
    obtain ⟨r', l, ds, hr', hds, hl, hlds⟩ := hagree v
    have hsame : r = r' := Option.some.inj (hr.symm.trans hr')
    rw [hsame] at hholds
    rw [hholds.unique hds]
    exact ⟨l, hl, hlds⟩
  obtain ⟨l, hl, hnull⟩ := hanswer nullValue
  obtain ⟨l', hl', htwin⟩ := hanswer nullTwin
  rw [if_pos (show nullValue.len = 0 from rfl)] at hnull
  rw [getHashValue_nullTwin, if_neg (by decide), if_neg nullHash_ne_zero] at htwin
  rw [hashCompressQuery_congr (w := nullValue)
    (getHashValue_nullTwin.trans (getHashValue_null rfl).symm), hl] at hl'
  obtain rfl : l = l' := Option.some.inj hl'
  have heq : nullDocs ins = hashDocs ins nullHash := hnull.unique htwin
  intro i him hik
  by_cases hlen : i.1.len = 0
  · have hmem : i.2 ∈ hashDocs ins nullHash := heq ▸ mem_nullDocs.mpr ⟨i, him, hlen, rfl⟩
    obtain ⟨j, hjm, hjlen, -, hji⟩ := mem_hashDocs.mp hmem
    rw [hasc.eq_of_docid hjm him hji] at hjlen
    exact hjlen hlen
  · have hmem : i.2 ∈ nullDocs ins := heq ▸ mem_hashDocs.mpr ⟨i, him, hlen, hik, rfl⟩
    obtain ⟨j, hjm, hjlen, hji⟩ := mem_nullDocs.mp hmem
    rw [hasc.eq_of_docid hjm him hji] at hjlen
    exact hlen hjlen

end Answers

/-- **COMPRESSING A HASH INDEX PRESERVES THE ANSWERS** for separate values, in
the files just written as in the ones opened again; and for all values exactly
if nothing was inserted under the hash of NULL. -/
theorem hash_compress_exact {S : Type} (rowLimit : Nat) (hpos : 0 < rowLimit)
    (hlt : 12 * (rowLimit + 1) < 2 ^ 32) (ins : List (LowData × UInt32))
    (hasc : Ascending rowLimit ins) (h : HashIndex)
    (hrun : run insertStep (hashIndexInit rowLimit hpos hlt) ins = some h)
    (order : List Nat) (ho : SortedOrder h order) :
    ∃ c files, hashCompressLoad order h = some (c, files) ∧
      (∀ v, hashCompressQuery (S := S) (hashCommpressInit rowLimit files) v
        = hashCompressQuery c v) ∧
      (∀ v, Separate ins v → Agree S h c v) ∧
      ((∀ v, Agree S h c v) ↔ ∀ i ∈ ins, getHashValue i.1 ≠ nullHash) := by
  obtain ⟨docs, hi, hlim, hmod⟩ := indexed_of_run rowLimit rowLimit hpos hlt hasc hrun
  obtain ⟨c, files, st, hload, hpacked, rfl, hindex, hdata, hcount⟩ :=
    hi.load hasc ho (hlim.trans hmod.symm)
  have htotal := hi.total_le hasc ho
  have hnum : (inUse h order).length ≤ ((inUse h order).flatMap docs).length :=
    length_le_flatMap fun s hs =>
      (hi.rep.head s (ho.mem_inUse.mp hs).1 (ho.mem_inUse.mp hs).2).1
  unfold cellBound at htotal
  -- what the packed files answer, in terms of all buckets
  have hanswer : ∀ v, PackedAnswer S h docs
      ⟨h.limit, h.limit + 1, files.bucketCount, files.docCount, some st.index, some st.data⟩ v := by
    intro v
    obtain ⟨l, hl, hans⟩ := hpacked.query (S := S)
      (c := ⟨h.limit, h.limit + 1, files.bucketCount, files.docCount, some st.index, some st.data⟩)
      hcount (fun _ => ⟨rfl, rfl⟩) (ho.sorted.sublist (dropWhile_sublist _))
      (by omega) (by omega) v
    refine ⟨l, hl, ?_⟩
    rcases hans with ⟨s, hs, hkey, hls⟩ | ⟨hnone, hnil⟩
    · obtain ⟨hsm, hk⟩ := ho.mem_inUse.mp hs
      exact .inl ⟨s, hsm, hk, hkey, hls⟩
    · exact .inr ⟨fun s hs hk => hnone s (ho.mem_inUse.mpr ⟨hs, hk⟩), hnil⟩
  refine ⟨_, files, hload, fun v => ?_, fun v hsep => hi.agree (hanswer v) hsep,
    hi.not_agree hasc, fun hall v => hi.agree (hanswer v) ?_⟩
  · -- opened again: the same counts, and the same files unless there are no seeks
    unfold hashCommpressInit hashCompressQuery
    by_cases h0 : files.bucketCount = 0
    · simp only [if_pos h0]
    · simp only [if_neg h0, hindex, hdata]
  · intro _
    split
    · exact fun i hi hk => absurd hk (hall i hi)
    · exact fun i hi hlen => hall i hi (getHashValue_null hlen)

theorem hash_compress_exact_two_inserts :
    ∃ h order c files, run insertStep (hashIndexInit 2 (by decide) (by decide))
        [(tinyValue 5, 0), (nullValue, 1)] = some h ∧
      SortedOrder h order ∧ hashCompressLoad order h = some (c, files) ∧
      Agree Unit h c (tinyValue 5) := by
  obtain ⟨h, hrun⟩ := Option.isSome_iff_exists.mp
    (show (run insertStep (hashIndexInit 2 (by decide) (by decide))
      [(tinyValue 5, 0), (nullValue, 1)]).isSome = true by decide)
  obtain ⟨c, files, hload, -, hagree, -⟩ := hash_compress_exact (S := Unit) 2 (by decide)
    (by decide) _ (by decide) h hrun _ (sortedOrder_mergeSort h)
  exact ⟨h, _, c, files, hrun, sortedOrder_mergeSort h, hload, hagree _ (by decide)⟩

/-- A value without bytes at docid 0; asked for its twin, the index answers
NULL and the compressed index docid 0. -/
theorem compressed_null_answers_twin :
    ∃ h c files,
      run insertStep (hashIndexInit 1 (by decide) (by decide)) [(nullValue, 0)] = some h ∧
      SortedOrder h [0, 1] ∧ hashCompressLoad [0, 1] h = some (c, files) ∧
      hashIndexQuery (S := Unit) h nullTwin = some none ∧
      ∃ l : RowidList Unit, hashCompressQuery c nullTwin = some l ∧ Holds l [0] := by
  refine ⟨_, _, _, rfl, ⟨by decide, by decide⟩, rfl, ?_, ?_⟩
  · unfold hashIndexQuery
    rw [if_neg (by decide), getHashValue_nullTwin]
    rfl
  · rw [hashCompressQuery_congr (w := nullValue)
      (getHashValue_nullTwin.trans (getHashValue_null rfl).symm)]
    refine ⟨_, rfl, rfl, fun i hi => ?_⟩
    obtain rfl : i = 0 := by simpa using hi
    rfl

end Mile.DocDb
