/-
  Mile.DocDb.DynamicHashIndex
  ───────────────────────────
  **THE DYNAMIC HASH INDEX** (`storage/docdb/dynamic_hash_index.c`).

  A chain of tables with `hashmod` buckets and a doclist of `2 * hashmod` cells each.  An insert
  probes `CONFLICT_RETRY_NUM + 1` = 101 buckets, a query `DOC_MULTIPLE_NUM + 1` = 3.
-/
import Mile.DocDb.HashIndex
import Mile.DocDb.SetOperator

namespace Mile.DocDb

open Lib Common List Function

/-! ## §1. Tables. -/

/-- `DOC_MULTIPLE_NUM`. -/
def docMultipleNum : Nat := 2

/-- `CONFLICT_RETRY_NUM`. -/
def conflictRetryNum : Nat := 100

/-- `struct dyhash_bucket`. -/
structure DyhashBucket where
  hashValue : UInt64
  count : UInt32
  offset : UInt32

/-- `struct dyhash_single_index`; `index` is the number in its file names. -/
structure DyhashSingleIndex where
  hashmod : Nat
  index : UInt16
  bucket : Nat → DyhashBucket
  doclist : Doclist
  hashmod_pos : 0 < hashmod

/-- `create_single_index` on new files. -/
def createSingleIndex (hashmod : Nat) (hpos : 0 < hashmod) (index : UInt16) :
    DyhashSingleIndex where
  hashmod := hashmod
  index := index
  bucket := fun _ => ⟨0, 0, 0⟩
  doclist := doclistInitV2 (hashmod * docMultipleNum)
  hashmod_pos := hpos

def DyhashSingleIndex.key (t : DyhashSingleIndex) (s : Nat) : UInt64 := (t.bucket s).hashValue

/-- The bucket a probe loop with the given bound ends at.  The loop also stops
when it is back at its home; going on would look at the same buckets again. -/
def DyhashSingleIndex.find (t : DyhashSingleIndex) (bound : Nat) (k : UInt64) : Option Nat :=
  findSlot t.hashmod 0 (homeOf t.hashmod) t.key (bound + 1) k

/-- The body of the probe loop of `insert` at the bucket it ends at.  The
return value 1 asks for a new table. -/
def DyhashSingleIndex.bucketInsert (t : DyhashSingleIndex) (s : Nat) (hashValue : UInt64)
    (docid : UInt32) : DyhashSingleIndex × Int :=
  let b := t.bucket s
  if b.hashValue = 0 then
    let r := doclistInsertV2 t.doclist docid 0 s
    if r.2 = 0xFFFFFFFF then ({ t with doclist := r.1 }, 1)
    else if r.2 = 0 then ({ t with doclist := r.1 }, 0)
    else
      ({ t with bucket := update t.bucket s ⟨hashValue, b.count + 1, r.2⟩, doclist := r.1 },
        0)
  else
    let r := doclistInsertV2 t.doclist docid b.offset s
    if r.2 = 0xFFFFFFFF then ({ t with doclist := r.1 }, 1)
    else if r.2 = 0 then ({ t with doclist := r.1 }, 0)
    else
      ({ t with bucket := update t.bucket s ⟨b.hashValue, b.count + 1, r.2⟩, doclist := r.1 },
        0)

/-- `insert`. -/
def DyhashSingleIndex.insert (t : DyhashSingleIndex) (data : LowData) (docid : UInt32) :
    DyhashSingleIndex × Int :=
  if data.len = 0 then (t, -1)
  else
    match t.find conflictRetryNum (getHashValue data) with
    | some s => t.bucketInsert s (getHashValue data) docid
    | none => (t, 1)

/-- `query`. -/
def DyhashSingleIndex.query {S : Type} (t : DyhashSingleIndex) (data : LowData) :
    Option (Option (RowidList S)) :=
  if data.len = 0 then some none
  else
    match t.find docMultipleNum (getHashValue data) with
    | some s =>
      if t.key s = 0 then some none
      else (getRowidList t.doclist (t.bucket s).offset.toNat).map some
    | none => some none

/-! ## §2. The chain of tables. -/

/-- `struct dyhash_index_manager`: the tables in front of the last one, and
the last one. -/
structure DyhashIndex where
  hashmod : Nat
  hashmod_pos : 0 < hashmod
  front : List DyhashSingleIndex
  tail : DyhashSingleIndex

/-- `dyhash_index_init` on new files: tables are numbered from 1. -/
def dyhashIndexInit (hashmod : Nat) (hpos : 0 < hashmod) : DyhashIndex :=
  ⟨hashmod, hpos, [], createSingleIndex hashmod hpos 1⟩

/-- `dyhash_index_insert`.  The number of a new table has 16 bits; a number
that is in use would open the files of another table a second time, and is
not followed further. -/
def dyhashIndexInsert (T : DyhashIndex) (data : LowData) (docid : UInt32) :
    Option (DyhashIndex × Int) :=
  let r := T.tail.insert data docid
  if r.2 = 1 then
    let index := T.tail.index + 1
    if (T.front ++ [T.tail]).any (·.index = index) then none
    else
      let r' := (createSingleIndex T.hashmod T.hashmod_pos index).insert data docid
      some ({ T with front := T.front ++ [r.1], tail := r'.1 }, r'.2)
  else some ({ T with tail := r.1 }, r.2)

/-- `dyhash_index_query`. -/
def dyhashIndexQuery {S : Type} [Zero S] [Add S] (T : DyhashIndex) (data : LowData) :
    Option (Option (RowidList S)) :=
  (T.front ++ [T.tail]).foldl
    (fun result t => result.bind fun l => (t.query data).bind fun temp => rowidUnion l temp)
    (some none)

/-- A call of `dyhash_index_insert` that returns `MILE_RETURN_SUCCESS`. -/
def dyhashStep (T : DyhashIndex) (i : LowData × UInt32) : Option DyhashIndex :=
  (hashing i.1 (dyhashIndexInsert T i.1 i.2)).bind fun res =>
    res.bind fun r => if r.2 = 0 then some r.1 else none

/-! ## §3. What a table stands for. -/

/-- The table holds the cells `cells s` at bucket `s`, newest first, and every
hash is within the reach of a query. -/
structure TableRep (t : DyhashSingleIndex) (cells : Nat → List Cell) : Prop where
  size : t.doclist.rowLimit ≤ cellBound
  cur_le : t.doclist.curOffset ≤ t.doclist.rowLimit
  probed : Probed t.hashmod 0 (homeOf t.hashmod) (docMultipleNum + 1) t.key
  empty : ∀ s < t.hashmod, t.key s = 0 → cells s = []
  head : ∀ s < t.hashmod, t.key s ≠ 0 → cells s ≠ [] ∧ (t.bucket s).offset = headOffset (cells s)
  chained : ∀ s < t.hashmod, Chained t.doclist s (cells s)
  placed : ∀ s < t.hashmod, ∀ c ∈ cells s, c.pos < t.doclist.curOffset

section Table

variable {t : DyhashSingleIndex} {cells : Nat → List Cell} {s : Nat} {k : UInt64} {d : UInt32}

theorem tableHomeOf_lt (t : DyhashSingleIndex) (k : UInt64) : homeOf t.hashmod k < t.hashmod :=
  Nat.mod_lt _ t.hashmod_pos

theorem tableRep_create (hashmod : Nat) (hpos : 0 < hashmod) (index : UInt16)
    (hsize : hashmod * docMultipleNum ≤ cellBound) :
    TableRep (createSingleIndex hashmod hpos index) (fun _ => []) where
  size := hsize
  cur_le := Nat.zero_le _
  probed := Probed.init _ _ _ _
  empty := fun _ _ _ => rfl
  head := fun _ _ h => absurd rfl h
  chained := fun _ _ => trivial
  placed := fun _ _ _ hc => nomatch hc

/-- The table after a docid took the next cell in front of bucket `s`. -/
def DyhashSingleIndex.put (t : DyhashSingleIndex) (s : Nat) (k : UInt64) (d : UInt32)
    (cs : List Cell) : DyhashSingleIndex :=
  { t with
    bucket := update t.bucket s ⟨k, (t.bucket s).count + 1, getOffset t.doclist.curOffset⟩
    doclist := (t.doclist.setCell t.doclist.curOffset d (headNext s cs)).setCurOffset
      (t.doclist.curOffset + 1) }

theorem tablePut_key (cs : List Cell) : (t.put s k d cs).key = update t.key s k := by
  funext u
  show (update t.bucket s _ u).hashValue = update t.key s k u
  by_cases hu : u = s
  · rw [hu, update_self, update_self]
  · rw [update_of_ne hu, update_of_ne hu]
    rfl

theorem tablePut_bucket_self (cs : List Cell) : ((t.put s k d cs).bucket s).offset
    = getOffset t.doclist.curOffset := by
  show (update t.bucket s _ s).offset = _
  rw [update_self]

theorem tablePut_bucket_of_ne (cs : List Cell) {u : Nat} (hu : u ≠ s) :
    (t.put s k d cs).bucket u = t.bucket u := update_of_ne hu ..

theorem tablePut_curOffset (cs : List Cell) (hcur : t.doclist.curOffset < cellBound) :
    (t.put s k d cs).doclist.curOffset = t.doclist.curOffset + 1 := by
  unfold cellBound at hcur
  exact curOffset_setCurOffset _ (by omega)

theorem bucketInsert_eq {off : UInt32} (hkey : t.key s = 0 ∨ t.key s = k)
    (hoff : (if t.key s = 0 then 0 else (t.bucket s).offset) = off) :
    t.bucketInsert s k d =
      (let r := doclistInsertV2 t.doclist d off s
        if r.2 = 0xFFFFFFFF then ({ t with doclist := r.1 }, 1)
        else if r.2 = 0 then ({ t with doclist := r.1 }, 0)
        else
          ({ t with
              bucket := update t.bucket s ⟨k, (t.bucket s).count + 1, r.2⟩
              doclist := r.1 }, 0)) := by
  unfold DyhashSingleIndex.bucketInsert
  rw [← hoff]
  by_cases hfree : t.key s = 0
  · have hfree' : (t.bucket s).hashValue = 0 := hfree
    simp only [if_pos hfree, if_pos hfree']
  · have hfree' : ¬ (t.bucket s).hashValue = 0 := hfree
    have hk : (t.bucket s).hashValue = k := hkey.resolve_left hfree
    simp only [if_neg hfree, if_neg hfree']
    rw [hk]

/-- **An insert at a bucket with a chain**: the doclist is full, or a docid
not smaller stands there already, or the docid goes to the front. -/
theorem bucketInsert_chain {cs : List Cell} (hkey : t.key s = 0 ∨ t.key s = k)
    (hoff : (if t.key s = 0 then 0 else (t.bucket s).offset) = headOffset cs)
    (hchain : Chained t.doclist s cs) (hcell : ∀ c ∈ cs, c.pos < cellBound)
    (hcur : t.doclist.curOffset ≤ t.doclist.rowLimit) (hsize : t.doclist.rowLimit ≤ cellBound) :
    (t.doclist.curOffset = t.doclist.rowLimit ∧ t.bucketInsert s k d = (t, 1)) ∨
      (t.doclist.curOffset < t.doclist.rowLimit ∧ (∃ c ∈ cs, d ≤ c.doc) ∧
        t.bucketInsert s k d = (t, 0)) ∨
      (t.doclist.curOffset < t.doclist.rowLimit ∧ (∀ c ∈ cs, c.doc < d) ∧
        t.bucketInsert s k d = (t.put s k d cs, 0)) := by
  rw [bucketInsert_eq hkey hoff]
  rcases Nat.eq_or_lt_of_le hcur with hfull | hroom
  · refine .inl ⟨hfull, ?_⟩
    rw [doclistInsertV2_full hfull]
    rfl
  · refine .inr ?_
    by_cases hlt : ∀ c ∈ cs, c.doc < d
    · refine .inr ⟨hroom, hlt, ?_⟩
      rw [hchain.insertV2_front hroom hcell hlt]
      simp only [if_neg (getOffset_ne_max (by omega : t.doclist.curOffset < cellBound)),
        if_neg (getOffset_ne_zero (by omega : t.doclist.curOffset < cellBound))]
      rfl
    · cases cs with
      | nil => exact absurd (fun c hc => nomatch hc) hlt
      | cons c cs =>
        -- the docids behind the newest one are smaller still
        have hdc : d ≤ c.doc := by
          by_contra hnot
          have hcd : c.doc < d := UInt32.not_le.mp hnot
          refine hlt fun x hx => ?_
          rcases mem_cons.mp hx with rfl | hx
          · exact hcd
          · exact UInt32.lt_trans (hchain.below x hx).2 hcd
        refine .inl ⟨hroom, ⟨c, mem_cons_self, hdc⟩, ?_⟩
        rw [hchain.insertV2_refused hroom (hcell c mem_cons_self) hdc]
        rfl

/-- **A bucket that is free or has the hash**: the doclist is full, or the
docid stands there already, or it goes to the front. -/
theorem TableRep.bucketInsert_cases (hrep : TableRep t cells) (hs : s < t.hashmod)
    (hkey : t.key s = 0 ∨ t.key s = k) (hle : ∀ c ∈ cells s, c.doc ≤ d) :
    (t.doclist.curOffset = t.doclist.rowLimit ∧ t.bucketInsert s k d = (t, 1)) ∨
      (t.doclist.curOffset < t.doclist.rowLimit ∧ (∃ c ∈ cells s, c.doc = d) ∧ t.key s = k ∧
        t.bucketInsert s k d = (t, 0)) ∨
      (t.doclist.curOffset < t.doclist.rowLimit ∧ (∀ c ∈ cells s, c.doc < d) ∧
        t.bucketInsert s k d = (t.put s k d (cells s), 0)) := by
  have hsize := hrep.size
  have hcur := hrep.cur_le
  have hcell : ∀ c ∈ cells s, c.pos < cellBound := fun c hc => by
    have := hrep.placed s hs c hc
    omega
  have hoff : (if t.key s = 0 then 0 else (t.bucket s).offset) = headOffset (cells s) := by
    by_cases hfree : t.key s = 0
    · rw [if_pos hfree, hrep.empty s hs hfree]
      rfl
    · rw [if_neg hfree, (hrep.head s hs hfree).2]
  rcases bucketInsert_chain (d := d) hkey hoff (hrep.chained s hs) hcell hcur hsize with
    hfull | ⟨hroom, ⟨c, hc, hdc⟩, hins⟩ | hfront
  · exact .inl hfull
  · -- the docid that is not smaller is this one
    have hk : t.key s ≠ 0 := by
      intro h0
      rw [hrep.empty s hs h0] at hc
      cases hc
    exact .inr (.inl ⟨hroom, ⟨c, hc, UInt32.le_antisymm (hle c hc) hdc⟩,
      hkey.resolve_left hk, hins⟩)
  · exact .inr (.inr hfront)

/-- A docid is put in front of the chain of a bucket. -/
theorem TableRep.put (hrep : TableRep t cells) (hs : s < t.hashmod) (hk : k ≠ 0)
    (hprobed : Probed t.hashmod 0 (homeOf t.hashmod) (docMultipleNum + 1)
      (update t.key s k))
    (hroom : t.doclist.curOffset < t.doclist.rowLimit) (hlt : ∀ c ∈ cells s, c.doc < d) :
    TableRep (t.put s k d (cells s))
      (update cells s (⟨t.doclist.curOffset, d⟩ :: cells s)) := by
  have hsize := hrep.size
  have hcur := tablePut_curOffset (t := t) (s := s) (k := k) (d := d) (cells s) (by omega)
  have hlimit : (t.put s k d (cells s)).doclist.rowLimit = t.doclist.rowLimit := rfl
  refine ⟨hsize, ?_, ?_, ?_, ?_, ?_, ?_⟩
  · rw [hcur, hlimit]
    omega
  · rw [tablePut_key]
    exact hprobed
  · intro u hu hkey
    rw [tablePut_key] at hkey
    by_cases hus : u = s
    · rw [hus, update_self] at hkey
      exact absurd hkey hk
    · rw [update_of_ne hus] at hkey ⊢
      exact hrep.empty u hu hkey
  · intro u hu hkey
    rw [tablePut_key] at hkey
    by_cases hus : u = s
    · rw [hus, update_self, tablePut_bucket_self]
      exact ⟨cons_ne_nil _ _, rfl⟩
    · rw [update_of_ne hus] at hkey ⊢
      rw [tablePut_bucket_of_ne _ hus]
      exact hrep.head u hu hkey
  · intro u hu
    refine Chained.setCurOffset ?_ _
    by_cases hus : u = s
    · rw [hus, update_self]
      exact (hrep.chained s hs).front fun c hc => ⟨hrep.placed s hs c hc, hlt c hc⟩
    · rw [update_of_ne hus]
      exact (hrep.chained u hu).setCell_of_ne
        (fun c hc => Nat.ne_of_lt (hrep.placed u hu c hc)) _ _
  · intro u hu c hc
    rw [hcur]
    by_cases hus : u = s
    · rw [hus, update_self] at hc
      rcases mem_cons.mp hc with rfl | hc
      · exact Nat.lt_succ_self _
      · exact Nat.lt_succ_of_lt (hrep.placed s hs c hc)
    · rw [update_of_ne hus] at hc
      exact Nat.lt_succ_of_lt (hrep.placed u hu c hc)

end Table

/-! ## §4. The docids of a table by hash. -/

/-- The table holds the docids `f k` under every hash `k` but 0. -/
def TableHolds (t : DyhashSingleIndex) (f : UInt64 → List UInt32) : Prop :=
  ∃ cells, TableRep t cells ∧
    (∀ s < t.hashmod, t.key s ≠ 0 → f (t.key s) = (cells s).map Cell.doc) ∧
    ∀ k, k ≠ 0 → (∀ s < t.hashmod, t.key s ≠ k) → f k = []

/-- Within the first `num` buckets from the home of the hash, one is free or
has the hash. -/
abbrev Near (t : DyhashSingleIndex) (k : UInt64) (num : Nat) : Prop :=
  ∃ j < num, t.key (slotAt t.hashmod (homeOf t.hashmod k) j) = 0 ∨
    t.key (slotAt t.hashmod (homeOf t.hashmod k) j) = k

/-- An insert into the table stays within the reach of queries: its bucket is
among the three a query looks at, or the table cannot take it at all. -/
abbrev Reachable (t : DyhashSingleIndex) (k : UInt64) : Prop :=
  Near t k (docMultipleNum + 1) ∨ t.doclist.curOffset = t.doclist.rowLimit ∨
    ¬ Near t k (conflictRetryNum + 1)

section Holds

variable {t : DyhashSingleIndex} {f : UInt64 → List UInt32} {v : LowData} {d : UInt32}

theorem near_iff_find (t : DyhashSingleIndex) (k : UInt64) (bound : Nat) :
    Near t k (bound + 1) ↔ (t.find bound k).isSome = true :=
  (findSlot_isSome_iff (tableHomeOf_lt t)).symm

theorem tableHolds_create (hashmod : Nat) (hpos : 0 < hashmod) (index : UInt16)
    (hsize : hashmod * docMultipleNum ≤ cellBound) :
    TableHolds (createSingleIndex hashmod hpos index) (fun _ => []) :=
  ⟨_, tableRep_create hashmod hpos index hsize, fun _ _ _ => rfl, fun _ _ _ => rfl⟩

theorem TableRep.find_key {cells : Nat → List Cell} (hrep : TableRep t cells) {u : Nat}
    (hu : u < t.hashmod) (hk : t.key u ≠ 0) : t.find docMultipleNum (t.key u) = some u :=
  hrep.probed.find (tableHomeOf_lt t) (le_refl _) hu hk

theorem TableHolds.desc (h : TableHolds t f) {k : UInt64} (hk : k ≠ 0) :
    (f k).Pairwise (· > ·) := by
  obtain ⟨cells, hrep, hdocs, habsent⟩ := h
  by_cases hin : ∃ s < t.hashmod, t.key s = k
  · obtain ⟨s, hs, rfl⟩ := hin
    rw [hdocs s hs hk]
    exact (hrep.chained s hs).docs_desc
  · rw [habsent k hk fun s hs heq => hin ⟨s, hs, heq⟩]
    exact Pairwise.nil

theorem find_reach {k : UInt64} (hreach : Reachable t k)
    (hroom : t.doclist.curOffset < t.doclist.rowLimit) {s : Nat}
    (hfind : t.find conflictRetryNum k = some s) : t.find docMultipleNum k = some s := by
  have hnear : Near t k (docMultipleNum + 1) := by
    rcases hreach with hnear | hfull | hfar
    · exact hnear
    · omega
    · exact absurd ((near_iff_find t k conflictRetryNum).mpr (by rw [hfind]; rfl)) hfar
  obtain ⟨u, hu⟩ := Option.isSome_iff_exists.mp ((near_iff_find t k docMultipleNum).mp hnear)
  have hmono : t.find conflictRetryNum k = some u :=
    findSlot_mono (tableHomeOf_lt t) (by decide) hu
  rw [hu, ← hmono, hfind]

/-- **One insert into a table**: it asks for a new table, or the docid stands
there already, or it goes in front of the docids of its hash. -/
theorem TableHolds.insert (h : TableHolds t f) (hlen : v.len ≠ 0) (hk : getHashValue v ≠ 0)
    (hreach : Reachable t (getHashValue v)) (hle : ∀ k, k ≠ 0 → ∀ e ∈ f k, e ≤ d) :
    t.insert v d = (t, 1) ∨ (t.insert v d = (t, 0) ∧ d ∈ f (getHashValue v)) ∨
      ∃ t', t.insert v d = (t', 0) ∧
        TableHolds t' (update f (getHashValue v) (d :: f (getHashValue v))) := by
  obtain ⟨cells, hrep, hdocs, habsent⟩ := h
  unfold DyhashSingleIndex.insert
  rw [if_neg hlen]
  generalize getHashValue v = k at hk hreach ⊢
  cases hfind : t.find conflictRetryNum k with
  | none => exact .inl rfl
  | some s =>
    obtain ⟨hs, hkey⟩ := findSlot_some (tableHomeOf_lt t) hfind
    have hcells : ∀ c ∈ cells s, c.doc ≤ d := by
      intro c hc
      have hne : t.key s ≠ 0 := by
        intro h0
        rw [hrep.empty s hs h0] at hc
        cases hc
      exact hle _ hne _ (by rw [hdocs s hs hne]; exact mem_map_of_mem hc)
    rcases hrep.bucketInsert_cases hs hkey hcells with
      ⟨-, hins⟩ | ⟨-, ⟨c, hc, hcd⟩, hks, hins⟩ | ⟨hroom, hlt, hins⟩
    · exact .inl hins
    · refine .inr (.inl ⟨hins, ?_⟩)
      rw [← hks, hdocs s hs (by rw [hks]; exact hk)]
      exact mem_map.mpr ⟨c, hc, hcd⟩
    · refine .inr (.inr ⟨_, hins, _, hrep.put hs hk ?_ hroom hlt, ?_, ?_⟩)
      · by_cases hfree : t.key s = 0
        · exact hrep.probed.update (tableHomeOf_lt t) (find_reach hreach hroom hfind) hfree
        · rw [← hkey.resolve_left hfree, Function.update_eq_self]
          exact hrep.probed
      · -- no other bucket has the hash
        have hunique : ∀ u < t.hashmod, t.key u = k → u = s := by
          intro u hu hku
          have hfound := hrep.find_key hu (by rw [hku]; exact hk)
          rw [hku, find_reach hreach hroom hfind] at hfound
          exact (Option.some.inj hfound).symm
        intro u hu hku
        rw [tablePut_key] at hku ⊢
        by_cases hus : u = s
        · subst hus
          rw [update_self, update_self, update_self, map_cons]
          congr 1
          by_cases hfree : t.key u = 0
          · rw [hrep.empty u hu hfree]
            refine habsent k hk fun w hw hkw => ?_
            rw [hunique w hw hkw] at hkw
            exact hk (hkw.symm.trans hfree)
          · rw [← hkey.resolve_left hfree]
            exact hdocs u hu hfree
        · rw [update_of_ne hus] at hku ⊢
          rw [update_of_ne hus, update_of_ne fun heq => hus (hunique u hu heq)]
          exact hdocs u hu hku
      · intro k' hk' hnone
        have hkk : k' ≠ k := by
          rintro rfl
          exact hnone s hs (by rw [tablePut_key, update_self])
        rw [update_of_ne hkk]
        refine habsent k' hk' fun u hu hku => ?_
        by_cases hus : u = s
        · rw [hus] at hku
          rcases hkey with h0 | h0
          · exact hk' (hku.symm.trans h0)
          · exact hkk (hku.symm.trans h0)
        · exact hnone u hu (by rw [tablePut_key, update_of_ne hus]; exact hku)

theorem Chained.readHead {S : Type} {l : Doclist} {b : Nat} {cs : List Cell}
    (h : Chained l b cs) (hne : cs ≠ []) (hplaced : ∀ c ∈ cs, c.pos < l.rowLimit)
    (hsize : l.rowLimit ≤ cellBound) :
    ∃ r : Option (RowidList S), (DocDb.getRowidList l (headOffset cs).toNat).map some = some r ∧
        ResultHolds r (cs.map Cell.doc) := by
  cases cs with
  | nil => exact absurd rfl hne
  | cons c cs =>
    have hc := hplaced c mem_cons_self
    obtain ⟨r, hr, hholds, -⟩ := h.getRowidList (S := S)
      (fun e he => by
        have := hplaced e (mem_cons_of_mem _ he)
        omega)
      (by omega)
    show ∃ r, (DocDb.getRowidList l (getOffset c.pos).toNat).map some = some r ∧ _
    rw [getOffset_toNat (by omega), hr]
    exact ⟨some r, rfl, hholds⟩

def tableAnswer (v : LowData) (f : UInt64 → List UInt32) : List UInt32 :=
  if v.len = 0 ∨ getHashValue v = 0 then [] else f (getHashValue v)

/-- A table answers with the docids it holds. -/
theorem TableHolds.query {S : Type} (h : TableHolds t f) (v : LowData) :
    ∃ r : Option (RowidList S), t.query v = some r ∧ ResultHolds r (tableAnswer v f) := by
  unfold DyhashSingleIndex.query tableAnswer
  by_cases hlen : v.len = 0
  · rw [if_pos hlen, if_pos (.inl hlen)]
    exact ⟨none, rfl, rfl⟩
  · rw [if_neg hlen]
    obtain ⟨cells, hrep, hdocs, habsent⟩ := h
    -- a probe that does not end at the hash shows that it is not in the table
    have hmissing : (∀ s, t.find docMultipleNum (getHashValue v) = some s →
        t.key s = 0) → (if v.len = 0 ∨ getHashValue v = 0 then []
          else f (getHashValue v)) = [] := by
      intro hfree
      split
      · rfl
      · next hne =>
          rw [not_or] at hne
          refine habsent _ hne.2 fun u hu hku => ?_
          have hfound := hrep.find_key hu (by rw [hku]; exact hne.2)
          rw [hku] at hfound
          exact hne.2 (hku.symm.trans (hfree u hfound))
    cases hfind : t.find docMultipleNum (getHashValue v) with
    | none =>
      refine ⟨none, rfl, hmissing fun s hs => ?_⟩
      rw [hfind] at hs
      cases hs
    | some s =>
      obtain ⟨hs, hkey⟩ := findSlot_some (tableHomeOf_lt t) hfind
      by_cases hfree : t.key s = 0
      · simp only [if_pos hfree]
        refine ⟨none, rfl, hmissing fun u hu => ?_⟩
        rw [hfind] at hu
        rw [← Option.some.inj hu]
        exact hfree
      · have hk := hkey.resolve_left hfree
        simp only [if_neg hfree]
        rw [if_neg (by rw [← hk]; simp [hlen, hfree]), ← hk, hdocs s hs hfree]
        obtain ⟨hne, hoff⟩ := hrep.head s hs hfree
        have hcur := hrep.cur_le
        have hsize := hrep.size
        rw [hoff]
        exact (hrep.chained s hs).readHead hne (fun c hc => by
          have := hrep.placed s hs c hc
          omega) hsize

end Holds

/-! ## §5. The chain of tables. -/

section Index

variable {T T' : DyhashIndex} {ins : List (LowData × UInt32)} {v : LowData} {d : UInt32}

/-- Every table holds its docids, and together they are what was inserted. -/
structure IndexHolds (T : DyhashIndex) (ins : List (LowData × UInt32)) : Prop where
  size : T.hashmod * docMultipleNum ≤ cellBound
  hash_ne_zero : ∀ i ∈ ins, getHashValue i.1 ≠ 0
  tables : ∃ fs f, Forall₂ TableHolds T.front fs ∧ TableHolds T.tail f ∧
    ∀ k, k ≠ 0 → ∀ d, (∃ g ∈ fs ++ [f], d ∈ g k) ↔ ∃ i ∈ ins, getHashValue i.1 = k ∧ i.2 = d

theorem indexHolds_init (hashmod : Nat) (hpos : 0 < hashmod)
    (hsize : hashmod * docMultipleNum ≤ cellBound) :
    IndexHolds (dyhashIndexInit hashmod hpos) [] := by
  refine ⟨hsize, fun _ hi => (nomatch hi), [], fun _ => [], Forall₂.nil,
    tableHolds_create _ _ _ hsize, fun k _ d => ?_⟩
  simp

/-- The next insert stays within the reach of queries, and its hash is not the
mark of free buckets. -/
abbrev CleanTerm (T : DyhashIndex) (i : LowData × UInt32) : Prop :=
  getHashValue i.1 ≠ 0 ∧ Reachable T.tail (getHashValue i.1)

theorem mem_update_cons {f : UInt64 → List UInt32} {k₀ k : UInt64} {e : UInt32} :
    e ∈ update f k₀ (d :: f k₀) k ↔ e ∈ f k ∨ (k₀ = k ∧ d = e) := by
  by_cases hk : k = k₀
  · subst hk
    rw [update_self, mem_cons, or_comm, eq_comm]
    simp
  · rw [update_of_ne hk]
    simp [Ne.symm hk]

/-- An insert goes to the last table or opens a new one. -/
theorem dyhashStep_cases (hstep : dyhashStep T (v, d) = some T') :
    v.len ≠ 0 ∧
      ((∃ t, T.tail.insert v d = (t, 0) ∧ T' = { T with tail := t }) ∨
        ∃ t₀ t index, T.tail.insert v d = (t₀, 1) ∧
          (createSingleIndex T.hashmod T.hashmod_pos index).insert v d = (t, 0) ∧
          T' = { T with front := T.front ++ [t₀], tail := t }) := by
  obtain ⟨res, hres, hstep⟩ := Option.bind_eq_some_iff.mp hstep
  obtain rfl := (hashing_eq_some.mp hres).2
  unfold dyhashIndexInsert at hstep
  have hlen : v.len ≠ 0 := by
    intro h0
    have hins : T.tail.insert v d = (T.tail, -1) := by
      unfold DyhashSingleIndex.insert
      rw [if_pos h0]
    simp [hins] at hstep
  refine ⟨hlen, ?_⟩
  rcases hins : T.tail.insert v d with ⟨t₀, code⟩
  simp only [hins] at hstep
  by_cases hone : code = 1
  · rw [if_pos hone] at hstep
    subst hone
    split at hstep
    · cases hstep
    · rcases hins' : (createSingleIndex T.hashmod T.hashmod_pos (T.tail.index + 1)).insert v d with
        ⟨t, code'⟩
      simp only [hins', Option.bind_some] at hstep
      by_cases hzero : code' = 0
      · subst hzero
        rw [if_pos rfl] at hstep
        exact .inr ⟨t₀, t, _, rfl, hins', (Option.some.inj hstep).symm⟩
      · rw [if_neg hzero] at hstep
        cases hstep
  · rw [if_neg hone, Option.bind_some] at hstep
    by_cases hzero : code = 0
    · subst hzero
      rw [if_pos rfl] at hstep
      exact .inl ⟨t₀, rfl, (Option.some.inj hstep).symm⟩
    · rw [if_neg hzero] at hstep
      cases hstep

/-- The step lemma of the inserts. -/
theorem IndexHolds.insert (h : IndexHolds T ins) (hclean : CleanTerm T (v, d))
    (hle : ∀ i ∈ ins, i.2 ≤ d) (hstep : dyhashStep T (v, d) = some T') :
    IndexHolds T' (ins ++ [(v, d)]) := by
  obtain ⟨hsize, hhash, fs, f, hfront, htail, hdocs⟩ := h
  obtain ⟨hk, hreach⟩ := hclean
  have hhash' : ∀ i ∈ ins ++ [(v, d)], getHashValue i.1 ≠ 0 := by
    intro i hi
    rcases mem_append.mp hi with hi | hi
    · exact hhash i hi
    · rw [mem_singleton.mp hi]
      exact hk
  have hmax : ∀ k, k ≠ 0 → ∀ e ∈ f k, e ≤ d := by
    intro k hk e he
    obtain ⟨i, hi, -, rfl⟩ := (hdocs k hk e).mp ⟨f, by simp, he⟩
    exact hle i hi
  -- what the index should hold now
  have hnew : ∀ (k : UInt64) (e : UInt32), (∃ i ∈ ins ++ [(v, d)], getHashValue i.1 = k ∧ i.2 = e) ↔
        (∃ i ∈ ins, getHashValue i.1 = k ∧ i.2 = e) ∨ (getHashValue v = k ∧ d = e) := by
    intro k e
    simp only [mem_append, mem_singleton, or_and_right, exists_or, exists_eq_left]
  obtain ⟨hlen, ⟨t, hins, rfl⟩ | ⟨t₀, t, index, hfull, hins, rfl⟩⟩ := dyhashStep_cases hstep
  · rcases htail.insert hlen hk hreach hmax with hone | ⟨hzero, hmem⟩ | ⟨t', hput, hholds⟩
    · rw [hins] at hone
      cases hone
    · -- the docid was there already
      rw [hins] at hzero
      obtain rfl : t = T.tail := congrArg Prod.fst hzero
      refine ⟨hsize, hhash', fs, f, hfront, htail, fun k hk' e => ?_⟩
      rw [hnew, hdocs k hk' e]
      refine ⟨.inl, fun hor => hor.elim id ?_⟩
      rintro ⟨rfl, rfl⟩
      exact (hdocs _ hk' d).mp ⟨f, by simp, hmem⟩
    · rw [hins] at hput
      obtain rfl : t = t' := congrArg Prod.fst hput
      refine ⟨hsize, hhash', fs, _, hfront, hholds, fun k hk' e => ?_⟩
      rw [hnew, ← hdocs k hk' e]
      simp only [mem_append, mem_singleton, or_and_right, exists_or, exists_eq_left,
        mem_update_cons]
      exact or_assoc.symm
  · have hempty := tableHolds_create T.hashmod T.hashmod_pos index hsize
    have hhome : Reachable (createSingleIndex T.hashmod T.hashmod_pos index) (getHashValue v) :=
      .inl ⟨0, by decide, .inl rfl⟩
    obtain rfl : t₀ = T.tail := by
      rcases htail.insert hlen hk hreach hmax with hone | ⟨hzero, -⟩ | ⟨t', hput, -⟩
      · rw [hfull] at hone
        exact congrArg Prod.fst hone
      · rw [hfull] at hzero
        cases hzero
      · rw [hfull] at hput
        cases hput
    rcases hempty.insert hlen hk hhome (fun _ _ _ he => nomatch he) with
      hone | ⟨-, hmem⟩ | ⟨t', hput, hholds⟩
    · rw [hins] at hone
      cases hone
    · cases hmem
    · rw [hins] at hput
      obtain rfl : t = t' := congrArg Prod.fst hput
      refine ⟨hsize, hhash', fs ++ [f], _,
        rel_append hfront (Forall₂.cons htail Forall₂.nil), hholds,
        fun k hk' e => ?_⟩
      rw [hnew, ← hdocs k hk' e]
      simp only [mem_append, mem_singleton, or_and_right, exists_or, exists_eq_left,
        mem_update_cons, not_mem_nil, false_or]

theorem IndexHolds.run (h : IndexHolds T ins) (more : List (LowData × UInt32))
    (hsorted : ((ins ++ more).map Prod.snd).Pairwise (· ≤ ·))
    (hclean : Along dyhashStep CleanTerm T more) (hrun : run dyhashStep T more = some T') :
    IndexHolds T' (ins ++ more) := by
  refine Along.inv_of_run (fun done T => IndexHolds T done) ins ?_ h hclean hrun
  intro done T i T' hpre hT hi hstep
  have hdone := hsorted.sublist (hpre.sublist.map Prod.snd)
  rw [map_append, pairwise_append] at hdone
  exact hT.insert hi (fun j hj => hdone.2.2 j.2 (mem_map_of_mem hj) i.2 (by simp)) hstep

variable {ts : List DyhashSingleIndex} {answers : List (List UInt32)}

theorem query_fold {S : Type} [Zero S] [Add S] {Q : Option (RowidList S) → List UInt32 → Prop}
    (hkeep : ∀ {a b xs ys}, Q a xs → Q b ys → ∃ r, rowidUnion a b = some r ∧ Q r (mergeDesc xs ys))
    (v : LowData) (h : Forall₂ (fun t ds => ∃ temp, t.query v = some temp ∧ Q temp ds) ts answers) :
    ∀ {result : Option (RowidList S)} {xs : List UInt32}, Q result xs →
      ∃ r, ts.foldl (fun result t => result.bind fun l =>
          (t.query v).bind fun temp => rowidUnion l temp) (some result) = some r ∧
        Q r (answers.foldl mergeDesc xs) := by
  induction h with
  | nil =>
    intro result xs hres
    exact ⟨result, rfl, hres⟩
  | cons ht _ ih =>
    intro result xs hres
    obtain ⟨temp, hquery, htemp⟩ := ht
    obtain ⟨l, hunion, hl⟩ := hkeep hres htemp
    obtain ⟨r, hfold, hr⟩ := ih hl
    refine ⟨r, ?_, hr⟩
    rw [foldl_cons, Option.bind_some, hquery, Option.bind_some, hunion]
    exact hfold

theorem foldl_mergeDesc :
    ∀ {xs : List UInt32}, xs.Pairwise (· > ·) → (∀ ds ∈ answers, ds.Pairwise (· > ·)) →
      (answers.foldl mergeDesc xs).Pairwise (· > ·) ∧
        ∀ e, e ∈ answers.foldl mergeDesc xs ↔ e ∈ xs ∨ ∃ ds ∈ answers, e ∈ ds := by
  induction answers with
  | nil =>
    intro xs hxs _
    exact ⟨hxs, fun e => by simp⟩
  | cons ds answers ih =>
    intro xs hxs hall
    obtain ⟨hdesc, hmem⟩ := ih (mergeDesc_desc hxs (hall ds mem_cons_self))
      (fun es hes => hall es (mem_cons_of_mem _ hes))
    refine ⟨hdesc, fun e => ?_⟩
    rw [foldl_cons, hmem e, mem_mergeDesc, or_assoc, exists_mem_cons_iff]

/-- The answers of the tables are united. -/
theorem query_tables {S : Type} [Zero S] [Add S] (v : LowData) {fs : List (UInt64 → List UInt32)}
    (h : Forall₂ TableHolds ts fs) {result : Option (RowidList S)} {xs : List UInt32}
    (hres : ResultHolds result xs) (hdesc : xs.Pairwise (· > ·)) :
    ∃ r ds, ts.foldl (fun result t => result.bind fun l =>
        (t.query v).bind fun temp => rowidUnion l temp) (some result) = some r ∧
      ResultHolds r ds ∧ ds.Pairwise (· > ·) ∧
      ∀ e, e ∈ ds ↔ e ∈ xs ∨ ∃ g ∈ fs, e ∈ tableAnswer v g := by
  have hanswers : Forall₂ (fun t ds => ∃ temp : Option (RowidList S),
      t.query v = some temp ∧ ResultHolds temp ds) ts (fs.map (tableAnswer v)) := by
    rw [forall₂_map_right_iff]
    exact h.imp fun t f ht => ht.query v
  have hall : ∀ ds ∈ fs.map (tableAnswer v), ds.Pairwise (· > ·) := by
    clear hanswers
    induction h with
    | nil => simp
    | @cons t f ts fs ht _ ih =>
      intro ds hds
      rcases mem_cons.mp hds with rfl | hds
      · unfold tableAnswer
        split
        · exact Pairwise.nil
        · next hne => exact ht.desc (not_or.mp hne).2
      · exact ih ds hds
  obtain ⟨r, hfold, hr⟩ := query_fold rowidUnion_holds v hanswers hres
  obtain ⟨hds, hmem⟩ := foldl_mergeDesc hdesc hall
  refine ⟨r, _, hfold, hr, hds, fun e => ?_⟩
  rw [hmem e]
  simp

end Index

/-- **FULL-TEXT INSERTS ARE FINDABLE**: after every run of successful inserts
with docids that do not go down and that stay within the reach of queries, a
query for a value that fits `to_hash` returns the docids inserted under the hash
of its value, each once, going down. -/
theorem dyhash_insert_findable {S : Type} [Zero S] [Add S] (hashmod : Nat) (hpos : 0 < hashmod)
    (hsize : hashmod * docMultipleNum ≤ cellBound) (ins : List (LowData × UInt32))
    (hsorted : (ins.map Prod.snd).Pairwise (· ≤ ·))
    (hclean : Along dyhashStep CleanTerm (dyhashIndexInit hashmod hpos) ins) (T : DyhashIndex)
    (hrun : run dyhashStep (dyhashIndexInit hashmod hpos) ins = some T) (v : LowData)
    (hfit : HashFits v) :
    ∃ (r : Option (RowidList S)) (ds : List UInt32),
      hashing v (dyhashIndexQuery T v) = some (some r) ∧ ResultHolds r ds ∧ ds.Pairwise (· > ·) ∧
      ∀ d, d ∈ ds ↔ v.len ≠ 0 ∧ ∃ i ∈ ins, getHashValue i.1 = getHashValue v ∧ i.2 = d := by
  obtain ⟨-, hhash, fs, f, hfront, htail, hdocs⟩ :=
    (indexHolds_init hashmod hpos hsize).run ins hsorted hclean hrun
  rw [nil_append] at hhash hdocs
  obtain ⟨r, ds, hquery, hr, hdesc, hmem⟩ := query_tables (S := S) v
    (rel_append hfront (Forall₂.cons htail Forall₂.nil))
    (show ResultHolds none [] from rfl) Pairwise.nil
  refine ⟨r, ds, hashing_eq_some.mpr ⟨hfit, hquery⟩, hr, hdesc, fun d => ?_⟩
  rw [hmem d]
  unfold tableAnswer
  by_cases hlen : v.len = 0
  · simp [hlen]
  · by_cases hzero : getHashValue v = 0
    · -- no value with this hash is inserted in a clean run
      have hnone : ¬ ∃ i ∈ ins, getHashValue i.1 = 0 ∧ i.2 = d := by
        rintro ⟨i, hi, h0, -⟩
        exact hhash i hi h0
      simp [hzero, hnone]
    · simp only [hlen, hzero, or_self, if_false, not_mem_nil, false_or, ne_eq,
        not_false_eq_true, true_and]
      exact hdocs _ hzero d

theorem dyhash_insert_findable_new_table :
    ∃ T, run dyhashStep (dyhashIndexInit 1 (by decide))
        [(tinyValue 5, 0), (tinyValue 5, 0), (tinyValue 5, 1), (tinyValue 6, 1), (tinyValue 5, 2)]
          = some T ∧
      ∃ (r : Option (RowidList Nat)) (ds : List UInt32),
        hashing (tinyValue 5) (dyhashIndexQuery T (tinyValue 5)) = some (some r) ∧
        ResultHolds r ds ∧ ds.Pairwise (· > ·) ∧ 0 ∈ ds ∧ 1 ∈ ds ∧ 2 ∈ ds := by
  obtain ⟨T, hT⟩ := Option.isSome_iff_exists.mp
    (show (run dyhashStep (dyhashIndexInit 1 (by decide))
      [(tinyValue 5, 0), (tinyValue 5, 0), (tinyValue 5, 1), (tinyValue 6, 1),
        (tinyValue 5, 2)]).isSome = true by decide)
  obtain ⟨r, ds, hquery, hr, hdesc, hmem⟩ := dyhash_insert_findable (S := Nat) 1 (by decide)
    (by decide) _ (by decide) (by decide +kernel) T hT (tinyValue 5)
    (by decide)
  exact ⟨T, hT, r, ds, hquery, hr, hdesc, (hmem 0).mpr (by decide), (hmem 1).mpr (by decide),
    (hmem 2).mpr (by decide)⟩

/-- Four values with one home: the fourth goes to the fourth bucket, which no
query looks at. -/
theorem fourth_collision_not_found :
    ∃ T, run dyhashStep (dyhashIndexInit 4 (by decide))
        [(tinyValue 0, 0), (tinyValue 4, 1), (tinyValue 8, 2), (tinyValue 12, 3)] = some T ∧
      dyhashIndexQuery (S := Nat) T (tinyValue 12) = some none := by
  refine ⟨_, rfl, rfl⟩

end Mile.DocDb
