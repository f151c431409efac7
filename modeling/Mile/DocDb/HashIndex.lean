/-
  Mile.DocDb.HashIndex
  ────────────────────
  **THE HASH INDEX** (`storage/docdb/hash_index.c`).

  A table of `hashmod` buckets with cyclic probing, and one more bucket for values without bytes.
  A bucket holds the 64-bit hash of its value (0 if free) and the offset of its newest cell; `Rep
  h docs` ties an index to the docids on each bucket.
-/
import Mile.Lib.Probe
import Mile.Lib.Run
import Mile.Common.Hash
import Mile.DocDb.Doclist

namespace Mile.DocDb

open Lib Common List Function

/-! ## §1. The index. -/

/-- `struct hash_bucket`. -/
structure HashBucket where
  hashValue : UInt64
  offset : UInt32
  deriving Repr, DecidableEq

/-- `struct hash_index_manager`: the mapped buckets `0 … hashmod` and the
doclist.  The size of the mapping, 12 bytes a bucket, has to fit 32 bits. -/
@[ext] structure HashIndex where
  hashmod : Nat
  limit : Nat
  bucket : Nat → HashBucket
  doclist : Doclist
  hashmod_pos : 0 < hashmod
  hashmod_lt : 12 * (hashmod + 1) < 2 ^ 32

def HashIndex.key (h : HashIndex) (s : Nat) : UInt64 := (h.bucket s).hashValue

/-- `hash_value % hashmod`. -/
def homeOf (hashmod : Nat) (k : UInt64) : Nat := k.toNat % hashmod

/-- The bucket the probe loops of `hash_index_insert` and `hash_index_query`
end at: the first one that is free or has the hash. -/
def HashIndex.find (h : HashIndex) (k : UInt64) : Option Nat :=
  findSlot h.hashmod 0 (homeOf h.hashmod) h.key h.hashmod k

def HashIndex.new (hashmod limit : Nat) (hpos : 0 < hashmod) (hlt : 12 * (hashmod + 1) < 2 ^ 32) :
    HashIndex :=
  { hashmod := hashmod, limit := limit, bucket := fun _ => ⟨0, 0⟩, doclist := doclistInit limit
    hashmod_pos := hpos, hashmod_lt := hlt }

/-- `hash_index_init`: as many buckets as rows. -/
def hashIndexInit (rowLimit : Nat) (hpos : 0 < rowLimit) (hlt : 12 * (rowLimit + 1) < 2 ^ 32) :
    HashIndex :=
  HashIndex.new rowLimit rowLimit hpos hlt

/-! ## §2. Insert and query. -/

def HashIndex.set (h : HashIndex) (s : Nat) (b : HashBucket) (dl : Doclist) : HashIndex :=
  { h with bucket := update h.bucket s b, doclist := dl }

def bucketInsert (h : HashIndex) (s : Nat) (hashValue : UInt64) (docid : UInt32) :
    HashIndex × ResultCode :=
  let b := h.bucket s
  if b.hashValue = 0 then
    let r := doclistInsert h.doclist docid 0 s
    if r.2 = 0 then ({ h with doclist := r.1 }, .errorInsertRepeat)
    else (h.set s ⟨hashValue, r.2⟩ r.1, .success)
  else
    let r := doclistInsert h.doclist docid b.offset s
    if r.2 = 0 then ({ h with doclist := r.1 }, .errorInsertRepeat)
    else (h.set s ⟨b.hashValue, r.2⟩ r.1, .success)

/-- The same for the bucket of values without bytes; once it is in use, the
offset is stored without a check. -/
def nullInsert (h : HashIndex) (hashValue : UInt64) (docid : UInt32) : HashIndex × ResultCode :=
  let b := h.bucket h.hashmod
  if b.hashValue = 0 then
    let r := doclistInsert h.doclist docid 0 h.hashmod
    if r.2 = 0 then ({ h with doclist := r.1 }, .errorInsertRepeat)
    else (h.set h.hashmod ⟨hashValue, r.2⟩ r.1, .success)
  else
    let r := doclistInsert h.doclist docid b.offset h.hashmod
    (h.set h.hashmod ⟨b.hashValue, r.2⟩ r.1, .success)

/-- `hash_index_insert`. -/
def hashIndexInsert (h : HashIndex) (data : LowData) (docid : UInt32) : HashIndex × ResultCode :=
  let hashValue := getHashValue data
  if data.len = 0 then nullInsert h hashValue docid
  else
    match h.find hashValue with
    | some s => bucketInsert h s hashValue docid
    | none => (h, .errorHashConflict)

/-- The docids of a bucket; `NULL` for a free one.  No result if the chain
never ends. -/
def readBucket {S : Type} (h : HashIndex) (s : Nat) : Option (Option (RowidList S)) :=
  if h.key s = 0 then some none
  else (getRowidList h.doclist (h.bucket s).offset.toNat).map some

/-- `hash_index_query`. -/
def hashIndexQuery {S : Type} (h : HashIndex) (data : LowData) : Option (Option (RowidList S)) :=
  if data.len = 0 then readBucket h h.hashmod
  else
    match h.find (getHashValue data) with
    | some s => readBucket h s
    | none => some none

/-- A call of `hash_index_insert` that returns `MILE_RETURN_SUCCESS`. -/
def insertStep (h : HashIndex) (i : LowData × UInt32) : Option HashIndex :=
  match hashing i.1 (hashIndexInsert h i.1 i.2) with
  | some (h', .success) => some h'
  | _ => none

theorem hashIndexInsert_of_insertStep {h h' : HashIndex} {i : LowData × UInt32}
    (hstep : insertStep h i = some h') : hashIndexInsert h i.1 i.2 = (h', .success) := by
  unfold insertStep at hstep
  split at hstep
  · next heq =>
      cases hstep
      exact (hashing_eq_some.mp heq).2
  · cases hstep

/-! ## §3. Chains that grow at the front. -/

def frontOffset (ds : List UInt32) : UInt32 := headOffset (ds.map ownCell)

def frontNext (b : Nat) (ds : List UInt32) : UInt32 := headNext b (ds.map ownCell)

theorem frontOffset_nil : frontOffset [] = 0 := rfl

theorem frontOffset_cons (e : UInt32) (es : List UInt32) :
    frontOffset (e :: es) = getOffset e.toNat := rfl

section Front

variable {l : Doclist} {b : Nat} {d : UInt32} {ds : List UInt32}

/-- **`doclist_insert`** of a docid larger than those of the chain writes its
cell in front. -/
theorem doclistInsert_front (hb : ∀ e ∈ ds, e.toNat < cellBound)
    (h : Chained l b (ds.map ownCell)) (hlt : ∀ e ∈ ds, e < d) (s : Nat) :
    doclistInsert l d (frontOffset ds) s
      = (l.setCell d.toNat d (frontNext s ds), getOffset d.toNat) := by
  unfold doclistInsert frontOffset
  rw [h.push_front (forall_mem_map.mpr hb) (forall_mem_map.mpr hlt)]
  rfl

theorem doclistInsert_refused {e : UInt32} {es : List UInt32}
    (h : Chained l b ((e :: es).map ownCell)) (hcell : e.toNat < cellBound) (hle : d ≤ e)
    (s : Nat) :
    doclistInsert l d (frontOffset (e :: es)) s = (l, 0) := by
  unfold doclistInsert frontOffset
  rw [map_cons] at h ⊢
  rw [h.push_refused hcell hle]

theorem Chained.front_docid (h : Chained l b (ds.map ownCell)) (hlt : ∀ e ∈ ds, e < d) :
    Chained (l.setCell d.toNat d (frontNext b ds)) b ((d :: ds).map ownCell) :=
  h.front (forall_mem_map.mpr fun e he => ⟨UInt32.lt_iff_toNat_lt.mp (hlt e he), hlt e he⟩)

end Front

/-! ## §4. What the buckets stand for. -/

/-- Bucket `s` holds the docids `ds`, newest first: its offset leads to the
first cell of a chain of them, which ends with the mark of some bucket. -/
structure BucketHolds (h : HashIndex) (s : Nat) (ds : List UInt32) : Prop where
  empty : h.key s = 0 → ds = []
  head : h.key s ≠ 0 → ds ≠ [] ∧ (h.bucket s).offset = frontOffset ds
  chained : ∃ b, Chained h.doclist b (ds.map ownCell)
  bounded : ∀ d ∈ ds, d.toNat < h.doclist.rowLimit ∧ d.toNat < cellBound

section Holds

variable {S : Type} {h : HashIndex} {s : Nat} {ds : List UInt32}

theorem BucketHolds.getRowidList (hs : BucketHolds h s ds) (hk : h.key s ≠ 0) :
    ∃ r : RowidList S, getRowidList h.doclist (h.bucket s).offset.toNat = some r ∧ Holds r ds ∧
      WellShaped r := by
  obtain ⟨hne, hoff⟩ := hs.head hk
  obtain ⟨b, hchain⟩ := hs.chained
  have hbound := hs.bounded
  rw [hoff]
  cases ds with
  | nil => exact absurd rfl hne
  | cons d ds =>
    have hd := hbound d mem_cons_self
    have hwalk := hchain.getRowidList (S := S)
      (forall_mem_map.mpr fun x hx => (hbound x (mem_cons_of_mem _ hx)).2) hd.1
    have hdocs : (ownCell d :: ds.map ownCell).map Cell.doc = d :: ds := by
      simp [Function.comp_def, ownCell]
    rw [hdocs] at hwalk
    rw [frontOffset_cons, getOffset_toNat hd.2]
    exact hwalk

theorem BucketHolds.readBucket (hs : BucketHolds h s ds) :
    ∃ r : Option (RowidList S), readBucket h s = some r ∧ ResultHolds r ds := by
  unfold DocDb.readBucket
  by_cases hfree : h.key s = 0
  · rw [if_pos hfree]
    exact ⟨none, rfl, hs.empty hfree⟩
  · rw [if_neg hfree]
    obtain ⟨r, hr, hholds, -⟩ := hs.getRowidList (S := S) hfree
    exact ⟨some r, congrArg (Option.map some) hr, hholds⟩

end Holds

/-- The index holds the docids `docs s` at bucket `s`, newest first. -/
structure Rep (h : HashIndex) (docs : Nat → List UInt32) : Prop where
  limit_eq : h.doclist.rowLimit = h.limit
  probed : Probed h.hashmod 0 (homeOf h.hashmod) h.hashmod h.key
  nullKey : h.key h.hashmod = 0 ∨ h.key h.hashmod = nullHash
  empty : ∀ s ≤ h.hashmod, h.key s = 0 → docs s = []
  head : ∀ s ≤ h.hashmod, h.key s ≠ 0 → docs s ≠ [] ∧ (h.bucket s).offset = frontOffset (docs s)
  chained : ∀ s ≤ h.hashmod, Chained h.doclist s ((docs s).map ownCell)
  bounded : ∀ s ≤ h.hashmod, ∀ d ∈ docs s, d.toNat < h.limit ∧ d.toNat < cellBound

theorem Rep.bucketHolds {h : HashIndex} {docs : Nat → List UInt32} (hrep : Rep h docs) {s : Nat}
    (hs : s ≤ h.hashmod) : BucketHolds h s (docs s) where
  empty := hrep.empty s hs
  head := hrep.head s hs
  chained := ⟨s, hrep.chained s hs⟩
  bounded := by
    rw [hrep.limit_eq]
    exact hrep.bounded s hs

theorem homeOf_lt (h : HashIndex) (k : UInt64) : homeOf h.hashmod k < h.hashmod :=
  Nat.mod_lt _ h.hashmod_pos

theorem rep_new (hashmod limit : Nat) (hpos : 0 < hashmod) (hlt : 12 * (hashmod + 1) < 2 ^ 32) :
    Rep (HashIndex.new hashmod limit hpos hlt) (fun _ => []) where
  limit_eq := rfl
  probed := Probed.init _ _ _ _
  nullKey := .inl rfl
  empty := fun _ _ _ => rfl
  head := fun _ _ h => absurd rfl h
  chained := fun _ _ => trivial
  bounded := fun _ _ _ hd => nomatch hd

section Insert

variable {h : HashIndex} {docs : Nat → List UInt32} {s : Nat} {k : UInt64} {d : UInt32}

/-- The index after a docid went to the front of bucket `s`. -/
def HashIndex.put (h : HashIndex) (s : Nat) (k : UInt64) (d : UInt32) (ds : List UInt32) :
    HashIndex :=
  h.set s ⟨k, getOffset d.toNat⟩ (h.doclist.setCell d.toNat d (frontNext s ds))

@[simp] theorem put_hashmod (ds : List UInt32) : (h.put s k d ds).hashmod = h.hashmod := rfl

theorem put_bucket_self (ds : List UInt32) :
    (h.put s k d ds).bucket s = ⟨k, getOffset d.toNat⟩ := update_self ..

theorem put_bucket_of_ne (ds : List UInt32) {t : Nat} (ht : t ≠ s) :
    (h.put s k d ds).bucket t = h.bucket t := update_of_ne ht ..

theorem put_key (ds : List UInt32) : (h.put s k d ds).key = update h.key s k := by
  funext t
  unfold HashIndex.key
  by_cases ht : t = s
  · subst ht
    rw [put_bucket_self, update_self]
  · rw [put_bucket_of_ne ds ht, update_of_ne ht]

/-- What an insert does to its bucket. -/
theorem bucketInsert_eq_put {ds : List UInt32} (hs : BucketHolds h s ds)
    (hkey : h.key s = 0 ∨ h.key s = k) (hd : d.toNat < cellBound) (hnew : ∀ e ∈ ds, e < d) :
    bucketInsert h s k d = (h.put s k d ds, .success) := by
  have hoff : getOffset d.toNat ≠ 0 := getOffset_ne_zero hd
  obtain ⟨b, hchain⟩ := hs.chained
  have hins := doclistInsert_front (fun e he => (hs.bounded e he).2) hchain hnew s
  unfold bucketInsert
  by_cases hfree : (h.bucket s).hashValue = 0
  · have hnil : ds = [] := hs.empty hfree
    rw [if_pos hfree]
    rw [hnil] at hins ⊢
    rw [frontOffset_nil] at hins
    simp only [hins, if_neg hoff]
    rfl
  · have hk : (h.bucket s).hashValue = k := hkey.resolve_left hfree
    rw [if_neg hfree, (hs.head hfree).2]
    simp only [hins, if_neg hoff, hk]
    rfl

theorem nullInsert_eq_put {ds : List UInt32} (hs : BucketHolds h h.hashmod ds)
    (hkey : h.key h.hashmod = 0 ∨ h.key h.hashmod = k) (hd : d.toNat < cellBound)
    (hnew : ∀ e ∈ ds, e < d) :
    nullInsert h k d = (h.put h.hashmod k d ds, .success) := by
  rw [← bucketInsert_eq_put hs hkey hd hnew]
  have hoff : getOffset d.toNat ≠ 0 := getOffset_ne_zero hd
  obtain ⟨b, hchain⟩ := hs.chained
  have hins := doclistInsert_front (fun e he => (hs.bounded e he).2) hchain hnew h.hashmod
  unfold nullInsert bucketInsert
  by_cases hfree : (h.bucket h.hashmod).hashValue = 0
  · rw [if_pos hfree, if_pos hfree]
  · -- the branch without the check: the offset is not 0 here
    rw [if_neg hfree, if_neg hfree, (hs.head hfree).2]
    simp only [hins, if_neg hoff]

variable (hrep : Rep h docs) (hnew : ∀ t ≤ h.hashmod, ∀ e ∈ docs t, e < d)

include hrep

theorem Rep.probed_update (hfind : h.find k = some s) :
    s < h.hashmod ∧ (h.key s = 0 ∨ h.key s = k) ∧
      Probed h.hashmod 0 (homeOf h.hashmod) h.hashmod (update h.key s k) := by
  obtain ⟨hs, hkey⟩ := findSlot_some (homeOf_lt h) hfind
  refine ⟨hs, hkey, ?_⟩
  by_cases hfree : h.key s = 0
  · exact hrep.probed.update (homeOf_lt h) hfind hfree
  · rw [← hkey.resolve_left hfree, Function.update_eq_self]
    exact hrep.probed

theorem Rep.probed_null :
    Probed h.hashmod 0 (homeOf h.hashmod) h.hashmod (update h.key h.hashmod k) := by
  have hsame : ∀ t < h.hashmod, update h.key h.hashmod k t = h.key t := fun t ht =>
    update_of_ne (Nat.ne_of_lt ht) _ _
  refine ⟨?_, ?_⟩
  · intro a b ha hb hne heq
    rw [hsame a ha] at hne heq
    rw [hsame b hb] at heq
    exact hrep.probed.inj a b ha hb hne heq
  · intro t ht hne
    rw [hsame t ht] at hne ⊢
    obtain ⟨j, hj, hjr, hslot, hpath⟩ := hrep.probed.path t ht hne
    refine ⟨j, hj, hjr, hslot, fun i hi => ?_⟩
    rw [hsame _ (slotAt_lt h.hashmod_pos i)]
    exact hpath i hi

include hnew

theorem Rep.chained_setCell (next : UInt32) {t : Nat} (ht : t ≤ h.hashmod) :
    Chained (h.doclist.setCell d.toNat d next) t ((docs t).map ownCell) := by
  refine (hrep.chained t ht).setCell_of_ne (forall_mem_map.mpr fun e he => ?_) _ _
  exact Nat.ne_of_lt (UInt32.lt_iff_toNat_lt.mp (hnew t ht e he))

/-- **A docid put in front of its bucket**, under a hash that is not 0. -/
theorem Rep.put (hs : s ≤ h.hashmod) (hk : k ≠ 0)
    (hprobed : Probed h.hashmod 0 (homeOf h.hashmod) h.hashmod (update h.key s k))
    (hnull : s = h.hashmod → k = nullHash) (hd : d.toNat < cellBound) (hlimit : d.toNat < h.limit) :
    Rep (h.put s k d (docs s)) (update docs s (d :: docs s)) := by
  refine ⟨hrep.limit_eq, ?_, ?_, ?_, ?_, ?_, ?_⟩
  · rw [put_key]
    exact hprobed
  · rw [put_key, put_hashmod]
    by_cases hm : h.hashmod = s
    · rw [hm, update_self]
      exact .inr (hnull hm.symm)
    · rw [update_of_ne hm]
      exact hrep.nullKey
  · intro t ht hkey
    rw [put_key] at hkey
    by_cases hts : t = s
    · rw [hts, update_self] at hkey
      exact absurd hkey hk
    · rw [update_of_ne hts] at hkey ⊢
      exact hrep.empty t ht hkey
  · intro t ht hkey
    rw [put_key] at hkey
    by_cases hts : t = s
    · subst hts
      rw [update_self, put_bucket_self]
      exact ⟨cons_ne_nil _ _, rfl⟩
    · rw [update_of_ne hts] at hkey ⊢
      rw [put_bucket_of_ne _ hts]
      exact hrep.head t ht hkey
  · intro t ht
    by_cases hts : t = s
    · subst hts
      rw [update_self]
      exact (hrep.chained t ht).front_docid (hnew t ht)
    · rw [update_of_ne hts]
      exact hrep.chained_setCell hnew _ ht
  · intro t ht e he
    by_cases hts : t = s
    · subst hts
      rw [update_self] at he
      rcases mem_cons.mp he with rfl | he
      · exact ⟨hlimit, hd⟩
      · exact hrep.bounded t ht e he
    · rw [update_of_ne hts] at he
      exact hrep.bounded t ht e he

theorem Rep.put_zero (hfree : h.key s = 0) : Rep (h.put s 0 d (docs s)) docs := by
  have hkey : (h.put s 0 d (docs s)).key = h.key := by
    rw [put_key, ← hfree, Function.update_eq_self]
  refine ⟨hrep.limit_eq, by rw [hkey]; exact hrep.probed, by rw [hkey]; exact hrep.nullKey,
    by rw [hkey]; exact hrep.empty, ?_, fun t ht => hrep.chained_setCell hnew _ ht, hrep.bounded⟩
  intro t ht hk
  rw [hkey] at hk
  have hts : t ≠ s := fun hts => hk (hts ▸ hfree)
  rw [put_bucket_of_ne _ hts]
  exact hrep.head t ht hk

end Insert

/-! ## §5. Runs of inserts. -/

def nullDocs (ins : List (LowData × UInt32)) : List UInt32 :=
  ((ins.filter fun i => i.1.len = 0).map Prod.snd).reverse

def hashDocs (ins : List (LowData × UInt32)) (k : UInt64) : List UInt32 :=
  ((ins.filter fun i => i.1.len ≠ 0 ∧ getHashValue i.1 = k).map Prod.snd).reverse

/-- The index holds what was inserted; values whose hash is 0 are lost. -/
structure Indexed (h : HashIndex) (docs : Nat → List UInt32) (ins : List (LowData × UInt32)) :
    Prop where
  rep : Rep h docs
  null : docs h.hashmod = nullDocs ins
  hash : ∀ s < h.hashmod, h.key s ≠ 0 → docs s = hashDocs ins (h.key s)
  all : ∀ k, k ≠ 0 → hashDocs ins k ≠ [] → ∃ s < h.hashmod, h.key s = k

/-- The docids of a run go up and stay within the segment, and within the
offsets a doclist can chain. -/
structure Ascending (limit : Nat) (ins : List (LowData × UInt32)) : Prop where
  sorted : (ins.map Prod.snd).Pairwise (· < ·)
  below : ∀ i ∈ ins, i.2.toNat < limit ∧ i.2.toNat < cellBound

theorem Ascending.next {limit : Nat} {done all : List (LowData × UInt32)} {i : LowData × UInt32}
    (h : Ascending limit all) (hpre : done ++ [i] <+: all) :
    (∀ j ∈ done, j.2 < i.2) ∧ i.2.toNat < limit ∧ i.2.toNat < cellBound := by
  have hsorted := h.sorted.sublist (hpre.sublist.map Prod.snd)
  rw [map_append, pairwise_append] at hsorted
  exact ⟨fun j hj => hsorted.2.2 j.2 (mem_map_of_mem hj) i.2 (by simp),
    h.below i (hpre.subset (by simp))⟩

theorem nullDocs_append (ins : List (LowData × UInt32)) (i : LowData × UInt32) :
    nullDocs (ins ++ [i]) = if i.1.len = 0 then i.2 :: nullDocs ins else nullDocs ins := by
  unfold nullDocs
  rw [filter_append, map_append, reverse_append]
  by_cases h : i.1.len = 0 <;> simp [h]

theorem hashDocs_append (ins : List (LowData × UInt32)) (i : LowData × UInt32) (k : UInt64) :
    hashDocs (ins ++ [i]) k =
      if i.1.len ≠ 0 ∧ getHashValue i.1 = k then i.2 :: hashDocs ins k else hashDocs ins k := by
  unfold hashDocs
  rw [filter_append, map_append, reverse_append]
  by_cases h : i.1.len ≠ 0 ∧ getHashValue i.1 = k
  · simp [h]
  · rw [if_neg h, filter_singleton, decide_eq_false h]
    rfl

section Run

variable {h h' : HashIndex} {docs : Nat → List UInt32} {ins : List (LowData × UInt32)}

theorem Indexed.mem (hi : Indexed h docs ins) {s : Nat} (hs : s ≤ h.hashmod) {e : UInt32}
    (he : e ∈ docs s) : ∃ i ∈ ins, i.2 = e := by
  have hfilter : ∀ p : LowData × UInt32 → Bool, e ∈ ((ins.filter p).map Prod.snd).reverse →
      ∃ i ∈ ins, i.2 = e := by
    intro p hmem
    obtain ⟨i, hi, rfl⟩ := mem_map.mp (mem_reverse.mp hmem)
    exact ⟨i, (mem_filter.mp hi).1, rfl⟩
  by_cases hfree : h.key s = 0
  · rw [hi.rep.empty s hs hfree] at he
    cases he
  · rcases Nat.eq_or_lt_of_le hs with rfl | hlt
    · exact hfilter _ (hi.null ▸ he)
    · exact hfilter _ (hi.hash s hlt hfree ▸ he)

theorem Indexed.docs_lt (hi : Indexed h docs ins) {d : UInt32} (hnew : ∀ j ∈ ins, j.2 < d) :
    ∀ t ≤ h.hashmod, ∀ e ∈ docs t, e < d := by
  intro t ht e he
  obtain ⟨j, hj, rfl⟩ := hi.mem ht he
  exact hnew j hj

theorem Rep.find_key (hrep : Rep h docs) {t : Nat} (ht : t < h.hashmod) (hk : h.key t ≠ 0) :
    h.find (h.key t) = some t :=
  hrep.probed.find (homeOf_lt h) (le_refl _) ht hk

/-- What hangs on the bucket a hash is found at is what was inserted under it. -/
theorem Indexed.docs_eq (hi : Indexed h docs ins) {k : UInt64} (hk : k ≠ 0) {s : Nat}
    (hfind : h.find k = some s) : docs s = hashDocs ins k := by
  obtain ⟨hs, hkey⟩ := findSlot_some (homeOf_lt h) hfind
  by_cases hfree : h.key s = 0
  · rw [hi.rep.empty s (Nat.le_of_lt hs) hfree]
    by_contra hdocs
    obtain ⟨u, hu, hku⟩ := hi.all _ hk fun hc => hdocs hc.symm
    have hfound := hi.rep.find_key hu (by rw [hku]; exact hk)
    rw [hku, hfind] at hfound
    have hsu : s = u := Option.some.inj hfound
    exact hk (hku.symm.trans (hsu ▸ hfree))
  · rw [hi.hash s hs hfree, hkey.resolve_left hfree]

section Step

variable {v : LowData} {d : UInt32} {s : Nat} (hi : Indexed h docs ins)
  (hlt : ∀ t ≤ h.hashmod, ∀ e ∈ docs t, e < d) (hlimit : d.toNat < h.limit)
  (hcell : d.toNat < cellBound)

include hi hlt

/-- A value with hash 0 is lost. -/
theorem Indexed.put_zero (hlen : v.len ≠ 0) (hzero : getHashValue v = 0) (hfree : h.key s = 0) :
    Indexed (h.put s 0 d (docs s)) docs (ins ++ [(v, d)]) := by
  have hkeep : (h.put s 0 d (docs s)).key = h.key := by
    rw [put_key, ← hfree, Function.update_eq_self]
  have hdocs : ∀ k, k ≠ 0 → hashDocs (ins ++ [(v, d)]) k = hashDocs ins k := by
    intro k hk
    rw [hashDocs_append, if_neg (fun hc => hk (hc.2.symm.trans hzero))]
  refine ⟨hi.rep.put_zero hlt hfree, ?_, ?_, ?_⟩
  · rw [put_hashmod, nullDocs_append, if_neg hlen, hi.null]
  · intro t ht hk
    rw [hkeep] at hk ⊢
    rw [hdocs _ hk]
    exact hi.hash t ht hk
  · intro k hk hne
    rw [hdocs k hk] at hne
    rw [hkeep]
    exact hi.all k hk hne

include hlimit hcell

/-- NULL goes to the bucket behind the table. -/
theorem Indexed.put_null (hlen : v.len = 0) :
    Indexed (h.put h.hashmod nullHash d (docs h.hashmod))
      (update docs h.hashmod (d :: docs h.hashmod)) (ins ++ [(v, d)]) := by
  refine ⟨hi.rep.put hlt (le_refl _) nullHash_ne_zero hi.rep.probed_null (fun _ => rfl) hcell
    hlimit, ?_, ?_, ?_⟩
  · rw [put_hashmod, update_self, nullDocs_append, if_pos hlen, hi.null]
  · intro s hs hk
    rw [put_hashmod] at hs
    have hne : s ≠ h.hashmod := Nat.ne_of_lt hs
    rw [put_key, update_of_ne hne] at hk ⊢
    rw [update_of_ne hne, hashDocs_append, if_neg (by simp [hlen])]
    exact hi.hash s hs hk
  · intro k hk hdocs
    rw [hashDocs_append, if_neg (by simp [hlen])] at hdocs
    obtain ⟨s, hs, hkey⟩ := hi.all k hk hdocs
    refine ⟨s, hs, ?_⟩
    rw [put_key, update_of_ne (Nat.ne_of_lt hs)]
    exact hkey

/-- A docid is put in front of the docids of its hash. -/
theorem Indexed.put_hash (hlen : v.len ≠ 0) (hk : getHashValue v ≠ 0)
    (hfind : h.find (getHashValue v) = some s) :
    Indexed (h.put s (getHashValue v) d (docs s)) (update docs s (d :: docs s))
      (ins ++ [(v, d)]) := by
  obtain ⟨hs, hkey, hprobed⟩ := hi.rep.probed_update hfind
  have hsm : h.hashmod ≠ s := (Nat.ne_of_lt hs).symm
  refine ⟨hi.rep.put hlt (Nat.le_of_lt hs) hk hprobed (fun hc => absurd hc.symm hsm) hcell
    hlimit, ?_, ?_, ?_⟩
  · rw [put_hashmod, update_of_ne hsm, nullDocs_append, if_neg hlen, hi.null]
  · intro t ht hkt
    rw [put_key] at hkt ⊢
    by_cases hts : t = s
    · rw [hts, update_self, update_self, hashDocs_append, if_pos ⟨hlen, rfl⟩, hi.docs_eq hk hfind]
    · rw [update_of_ne hts] at hkt ⊢
      rw [update_of_ne hts]
      have hne : getHashValue v ≠ h.key t := by
        intro heq
        have hfound := hi.rep.find_key ht hkt
        rw [← heq, hfind] at hfound
        exact hts (Option.some.inj hfound).symm
      rw [hashDocs_append, if_neg (fun hc => hne hc.2)]
      exact hi.hash t ht hkt
  · intro k hk' hdocs
    rw [put_key]
    by_cases hkv : getHashValue v = k
    · exact ⟨s, hs, by rw [update_self]; exact hkv⟩
    · rw [hashDocs_append, if_neg (fun hc => hkv hc.2)] at hdocs
      obtain ⟨t, ht, hkt⟩ := hi.all k hk' hdocs
      refine ⟨t, ht, ?_⟩
      rw [update_of_ne ?_, hkt]
      rintro rfl
      rcases hkey with hc | hc
      · exact hk' (hkt.symm.trans hc)
      · exact hkv (hc.symm.trans hkt)

end Step

/-- **What a successful insert does** when the docid is larger than all
before: it goes to the front of the extra bucket, or of the one its hash is
found at. -/
theorem Rep.insertStep_put (hrep : Rep h docs) {v : LowData} {d : UInt32}
    (hlt : ∀ t ≤ h.hashmod, ∀ e ∈ docs t, e < d) (hcell : d.toNat < cellBound)
    (hstep : insertStep h (v, d) = some h') :
    ∃ s, h' = h.put s (getHashValue v) d (docs s) ∧
      (v.len = 0 ∧ s = h.hashmod ∨ v.len ≠ 0 ∧ h.find (getHashValue v) = some s) := by
  have hstep := hashIndexInsert_of_insertStep hstep
  unfold hashIndexInsert at hstep
  simp only at hstep
  by_cases hlen : v.len = 0
  · rw [if_pos hlen, getHashValue_null hlen,
      nullInsert_eq_put (hrep.bucketHolds (le_refl _)) hrep.nullKey hcell (hlt _ (le_refl _))]
      at hstep
    cases hstep
    exact ⟨_, by rw [getHashValue_null hlen], .inl ⟨hlen, rfl⟩⟩
  · rw [if_neg hlen] at hstep
    cases hfind : h.find (getHashValue v) with
    | none =>
      rw [hfind] at hstep
      simp at hstep
    | some s =>
      obtain ⟨hs, hkey, -⟩ := hrep.probed_update hfind
      rw [hfind] at hstep
      simp only at hstep
      rw [bucketInsert_eq_put (hrep.bucketHolds (Nat.le_of_lt hs)) hkey hcell
        (hlt s (Nat.le_of_lt hs))] at hstep
      cases hstep
      exact ⟨s, rfl, .inr ⟨hlen, rfl⟩⟩

/-- **One insert** of a docid larger than all before: it goes to the front of
one bucket, and the index goes on holding what was inserted. -/
theorem Indexed.insert (hi : Indexed h docs ins) {i : LowData × UInt32}
    (hnew : ∀ j ∈ ins, j.2 < i.2) (hlimit : i.2.toNat < h.limit) (hcell : i.2.toNat < cellBound)
    (hstep : insertStep h i = some h') :
    ∃ s ≤ h.hashmod, ∃ docs', h' = h.put s (getHashValue i.1) i.2 (docs s) ∧
      (h.key s = 0 ∨ h.key s = getHashValue i.1) ∧ Indexed h' docs' (ins ++ [i]) ∧
      (getHashValue i.1 ≠ 0 → docs' = update docs s (i.2 :: docs s)) := by
  obtain ⟨v, d⟩ := i
  have hlt := hi.docs_lt hnew
  obtain ⟨s, rfl, ⟨hlen, rfl⟩ | ⟨hlen, hfind⟩⟩ := hi.rep.insertStep_put hlt hcell hstep
  · refine ⟨_, le_refl _, update docs h.hashmod (d :: docs h.hashmod), rfl, ?_⟩
    rw [getHashValue_null hlen]
    exact ⟨hi.rep.nullKey, hi.put_null hlt hlimit hcell hlen, fun _ => rfl⟩
  · obtain ⟨hs, hkey, -⟩ := hi.rep.probed_update hfind
    by_cases hzero : getHashValue v = 0
    · have hfree : h.key s = 0 := by simpa [hzero] using hkey
      refine ⟨s, Nat.le_of_lt hs, docs, rfl, hkey, ?_, fun hne => absurd hzero hne⟩
      rw [hzero]
      exact hi.put_zero hlt hlen hzero hfree
    · exact ⟨s, Nat.le_of_lt hs, _, rfl, hkey, hi.put_hash hlt hlimit hcell hlen hzero hfind,
        fun _ => rfl⟩

/-- **The invariant rule for runs of inserts** with growing docids: what
putting a docid in front of a bucket keeps holds at the end. -/
theorem Indexed.run_inv (Inv : HashIndex → (Nat → List UInt32) → Prop) (P : LowData × UInt32 → Prop)
    (hput : ∀ g ds ds' s i, Inv g ds → P i → s ≤ g.hashmod →
      (g.key s = 0 ∨ g.key s = getHashValue i.1) → i.2.toNat < g.limit → i.2.toNat < cellBound →
      (getHashValue i.1 ≠ 0 → ds' = update ds s (i.2 :: ds s)) →
      Inv (g.put s (getHashValue i.1) i.2 (ds s)) ds')
    (hi : Indexed h docs ins) (hinv : Inv h docs) (more : List (LowData × UInt32))
    (hasc : Ascending h.limit (ins ++ more)) (hP : ∀ i ∈ more, P i)
    (hrun : run insertStep h more = some h') :
    ∃ docs', Indexed h' docs' (ins ++ more) ∧ Inv h' docs' ∧
      h'.limit = h.limit ∧ h'.hashmod = h.hashmod := by
  refine Along.inv_of_run (fun done g => ∃ ds, Indexed g ds done ∧ Inv g ds ∧
    g.limit = h.limit ∧ g.hashmod = h.hashmod) ins ?_ ⟨docs, hi, hinv, rfl, rfl⟩
    (along_of_forall h hP) hrun
  rintro done g i g' hpre ⟨ds, hg, hginv, hlim, hmod⟩ hPi hstep
  obtain ⟨hnew, hlimit, hcell⟩ := hasc.next hpre
  rw [← hlim] at hlimit
  obtain ⟨s, hs, ds', rfl, hkey, hg', hds⟩ := hg.insert hnew hlimit hcell hstep
  exact ⟨ds', hg', hput g ds ds' s i hginv hPi hs hkey hlimit hcell hds, hlim, hmod⟩

theorem indexed_new (hashmod limit : Nat) (hpos : 0 < hashmod) (hlt : 12 * (hashmod + 1) < 2 ^ 32) :
    Indexed (HashIndex.new hashmod limit hpos hlt) (fun _ => []) [] where
  rep := rep_new hashmod limit hpos hlt
  null := rfl
  hash := fun _ _ h => absurd rfl h
  all := fun _ _ h => absurd rfl h

theorem indexed_of_run (hashmod limit : Nat) (hpos : 0 < hashmod)
    (hlt : 12 * (hashmod + 1) < 2 ^ 32) (hasc : Ascending limit ins)
    (hrun : run insertStep (HashIndex.new hashmod limit hpos hlt) ins = some h) :
    ∃ docs, Indexed h docs ins ∧ h.limit = limit ∧ h.hashmod = hashmod := by
  obtain ⟨docs, hi, -, hsize⟩ := (indexed_new hashmod limit hpos hlt).run_inv
    (fun _ _ => True) (fun _ => True)
    (fun _ _ _ _ _ _ _ _ _ _ _ _ => trivial) trivial ins hasc (fun _ _ => trivial) hrun
  exact ⟨docs, hi, hsize⟩

/-- A query answers with the docids of its hash. -/
theorem Indexed.query {S : Type} (hi : Indexed h docs ins) (v : LowData) :
    ∃ r : Option (RowidList S), hashIndexQuery h v = some r ∧
      ResultHolds r (if v.len = 0 then nullDocs ins
        else if getHashValue v = 0 then [] else hashDocs ins (getHashValue v)) := by
  unfold hashIndexQuery
  by_cases hlen : v.len = 0
  · rw [if_pos hlen, if_pos hlen, ← hi.null]
    exact (hi.rep.bucketHolds (le_refl _)).readBucket
  · rw [if_neg hlen, if_neg hlen]
    cases hfind : h.find (getHashValue v) with
    | none =>
      refine ⟨none, rfl, ?_⟩
      show _ = []
      split
      · rfl
      · next hk =>
          by_contra hdocs
          obtain ⟨s, hs, hkey⟩ := hi.all _ hk hdocs
          have hfound := hi.rep.find_key hs (by rw [hkey]; exact hk)
          rw [hkey, hfind] at hfound
          cases hfound
    | some s =>
      obtain ⟨hs, hkey⟩ := findSlot_some (homeOf_lt h) hfind
      obtain ⟨r, hr, hholds⟩ := (hi.rep.bucketHolds (Nat.le_of_lt hs)).readBucket (S := S)
      refine ⟨r, hr, ?_⟩
      split
      · next hzero =>
          have hfree : h.key s = 0 := by simpa [hzero] using hkey
          rwa [hi.rep.empty s (Nat.le_of_lt hs) hfree] at hholds
      · next hk => rwa [← hi.docs_eq hk hfind]

end Run

/-! ## §6. Answers. -/

/-- What a query for `v` should return: the docids inserted with a value of
the same hash, newest first; for a value without bytes, those inserted with
one. -/
def answers (ins : List (LowData × UInt32)) (v : LowData) : List UInt32 :=
  if v.len = 0 then nullDocs ins
  else ((ins.filter fun i => getHashValue i.1 = getHashValue v).map Prod.snd).reverse

/-- The values a run can answer for: not a `double` whose text is too long, not
one whose hash, 0, marks free buckets if such a value was inserted, and not one
whose hash is that of values without bytes if one of these was inserted. -/
abbrev Findable (ins : List (LowData × UInt32)) (v : LowData) : Prop :=
  v.len = 0 ∨
    HashFits v ∧ (getHashValue v = 0 → ∀ i ∈ ins, getHashValue i.1 ≠ 0) ∧
      (getHashValue v = nullHash → ∀ i ∈ ins, i.1.len ≠ 0)

instance (limit : Nat) (ins : List (LowData × UInt32)) : Decidable (Ascending limit ins) :=
  decidable_of_iff ((ins.map Prod.snd).Pairwise (· < ·) ∧
    ∀ i ∈ ins, i.2.toNat < limit ∧ i.2.toNat < cellBound)
    ⟨fun h => ⟨h.1, h.2⟩, fun h => ⟨h.sorted, h.below⟩⟩

section Answers

variable {ins : List (LowData × UInt32)} {v : LowData}

theorem Ascending.filter_desc {limit : Nat} (hasc : Ascending limit ins)
    (p : LowData × UInt32 → Bool) :
    (((ins.filter p).map Prod.snd).reverse).Pairwise (· > ·) := by
  rw [pairwise_reverse]
  exact hasc.sorted.sublist (filter_sublist.map Prod.snd)

theorem answers_desc {limit : Nat} (hasc : Ascending limit ins) (v : LowData) :
    (answers ins v).Pairwise (· > ·) := by
  unfold answers nullDocs
  split
  · exact hasc.filter_desc _
  · exact hasc.filter_desc _

/-- When these are the docids of the value. -/
theorem bucket_answers_iff (hlen : v.len ≠ 0) :
    (if getHashValue v = 0 then [] else hashDocs ins (getHashValue v)) = answers ins v ↔
      (getHashValue v = 0 → ∀ i ∈ ins, getHashValue i.1 ≠ 0) ∧
        (getHashValue v = nullHash → ∀ i ∈ ins, i.1.len ≠ 0) := by
  unfold answers
  rw [if_neg hlen]
  by_cases hzero : getHashValue v = 0
  · -- nothing is returned: right if nothing was inserted with hash 0
    have hnull : getHashValue v ≠ nullHash := hzero ▸ nullHash_ne_zero.symm
    simp only [hzero, if_true, forall_const]
    rw [eq_comm, reverse_eq_nil_iff, map_eq_nil_iff, filter_eq_nil_iff]
    simp [← hzero, hnull]
  · rw [if_neg hzero]
    simp only [hzero, false_imp_iff, true_and]
    unfold hashDocs
    by_cases hnull : getHashValue v = nullHash
    · simp only [hnull, forall_const]
      constructor
      · intro heq i hi hleni
        -- a value without bytes is in the answers but not in the bucket
        have hsub : (ins.filter fun j => j.1.len ≠ 0 ∧ getHashValue j.1 = nullHash).Sublist
            (ins.filter fun j => getHashValue j.1 = nullHash) :=
          monotone_filter_right ins (by intro j; simp)
        have hsame := hsub.eq_of_length (by simpa using congrArg List.length heq)
        have hmem : i ∈ ins.filter fun j => getHashValue j.1 = nullHash :=
          mem_filter.mpr ⟨hi, by simp [getHashValue_null hleni]⟩
        rw [← hsame] at hmem
        simp [hleni] at hmem
      · intro hall
        congr 2
        apply filter_congr
        intro i hi
        simp [hall i hi]
    · simp only [hnull, false_imp_iff, iff_true]
      congr 2
      apply filter_congr
      intro i _
      have : getHashValue i.1 = getHashValue v → i.1.len ≠ 0 := by
        intro heq hleni
        exact hnull (heq.symm.trans (getHashValue_null hleni))
      simp only [decide_eq_decide]
      exact ⟨fun h => h.2, fun h => ⟨this h, h⟩⟩

end Answers

/-- **HASH INDEX ANSWERS ARE EXACT** for the findable values, and only for
these: after every run of successful inserts with growing docids, a query
returns the docids inserted with a value of the same hash, newest first. -/
theorem hash_index_exact {S : Type} (hashmod limit : Nat) (hpos : 0 < hashmod)
    (hlt : 12 * (hashmod + 1) < 2 ^ 32) (ins : List (LowData × UInt32)) (hasc : Ascending limit ins)
    (h : HashIndex) (hrun : run insertStep (HashIndex.new hashmod limit hpos hlt) ins = some h)
    (v : LowData) :
    ((∃ r : Option (RowidList S), hashing v (hashIndexQuery h v) = some (some r) ∧
        ResultHolds r (answers ins v)) ↔
      Findable ins v) ∧ (answers ins v).Pairwise (· > ·) := by
  refine ⟨?_, answers_desc hasc v⟩
  obtain ⟨docs, hi, -⟩ := indexed_of_run hashmod limit hpos hlt hasc hrun
  obtain ⟨r, hr, hholds⟩ := hi.query (S := S) v
  by_cases hlen : v.len = 0
  · rw [if_pos hlen] at hholds
    refine ⟨fun _ => .inl hlen, fun _ => ⟨r, hashing_eq_some.mpr ⟨.inl hlen, hr⟩, ?_⟩⟩
    unfold answers
    rw [if_pos hlen]
    exact hholds
  · rw [if_neg hlen] at hholds
    unfold Findable
    rw [← bucket_answers_iff hlen, or_iff_right hlen]
    constructor
    · rintro ⟨r', hr', hholds'⟩
      obtain ⟨hfit, hr'⟩ := hashing_eq_some.mp hr'
      rw [hr] at hr'
      cases hr'
      exact ⟨hfit, hholds.unique hholds'⟩
    · rintro ⟨hfit, heq⟩
      exact ⟨r, hashing_eq_some.mpr ⟨hfit, hr⟩, heq ▸ hholds⟩

def tinyValue (b : UInt8) : LowData := ⟨[97], .tiny, [b]⟩

def nullValue : LowData := ⟨[97], .tiny, []⟩

theorem hash_index_exact_three_inserts :
    ∃ h, run insertStep (hashIndexInit 4 (by decide) (by decide))
        [(tinyValue 5, 0), (nullValue, 1), (tinyValue 5, 3)] = some h ∧
      ∃ r : Option (RowidList Unit),
        hashing (tinyValue 5) (hashIndexQuery h (tinyValue 5)) = some (some r) ∧
          ResultHolds r [3, 0] := by
  obtain ⟨h, hrun⟩ := Option.isSome_iff_exists.mp
    (show (run insertStep (hashIndexInit 4 (by decide) (by decide))
      [(tinyValue 5, 0), (nullValue, 1), (tinyValue 5, 3)]).isSome = true by decide)
  exact ⟨h, hrun, (hash_index_exact 4 4 (by decide) (by decide) _ (by decide) h hrun
    (tinyValue 5)).1.mpr (by decide)⟩

def lowestValue : LowData := ⟨[97], .longlong, [1, 0, 0, 0, 0, 0, 0, 128]⟩

/-- The value -(2^63 - 1) hashes to 0: inserted with success, it is not found. -/
theorem hash_zero_not_found :
    ∃ h, run insertStep (hashIndexInit 1 (by decide) (by decide)) [(lowestValue, 0)] = some h ∧
      hashIndexQuery (S := Unit) h lowestValue = some none ∧
      answers [(lowestValue, 0)] lowestValue = [0] := by
  refine ⟨_, rfl, rfl, rfl⟩

end Mile.DocDb
