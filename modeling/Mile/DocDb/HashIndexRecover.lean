/-
  Mile.DocDb.HashIndexRecover
  ───────────────────────────
  **RECOVERY OF THE HASH INDEX** (`hash_index_recover`).

  The cells from the given docid on are cleared, and every remaining cell, from the highest down,
  is followed to the end of its chain, where the number of its bucket stands.  A value whose hash
  is 0 breaks this.
-/
import Mile.DocDb.HashIndex

namespace Mile.DocDb

open Lib Common List Function

/-! ## §1. The function. -/

/-- `memset` of the cells from `cell` to the end of the file. -/
def Doclist.clearFrom (l : Doclist) (cell : Nat) : Doclist :=
  { l with word := fun a =>
      if cellAddr cell ≤ a ∧ a < cellAddr l.rowLimit then 0 else l.word a }

/-- Where the inner loop goes on from a cell: only the top bit stops it. -/
def Doclist.upLink (l : Doclist) (addr : Nat) : Option Nat :=
  if flagged (l.next addr) then none else some (l.next addr).toNat

def Doclist.chainEnd (l : Doclist) (addr : Nat) : Option Nat :=
  (follow l.upLink (l.rowLimit + 1) addr).bind List.getLast?

def relinkCell (l : Doclist) (i : Nat) (b : Nat → HashBucket) : Option (Nat → HashBucket) :=
  if l.docId (cellAddr i) = 0 ∧ l.next (cellAddr i) = 0 then some b
  else
    (l.chainEnd (cellAddr i)).map fun last =>
      let bucketNo := (l.next last &&& 0x7FFFFFFF).toNat
      if (b bucketNo).offset < getOffset i then
        update b bucketNo { b bucketNo with offset := getOffset i }
      else b

/-- The relinking loop over the cells below `i`, from the highest down. -/
def relinkLoop (l : Doclist) : Nat → (Nat → HashBucket) → Option (Nat → HashBucket)
  | 0, b => some b
  | i + 1, b => (relinkCell l i b).bind (relinkLoop l i)

def cutOffsets (h : HashIndex) (maxOffset : UInt32) (s : Nat) : HashBucket :=
  if s ≤ h.hashmod ∧ maxOffset ≤ (h.bucket s).offset then { h.bucket s with offset := 0 }
  else h.bucket s

def freeBuckets (hashmod : Nat) (b : Nat → HashBucket) (s : Nat) : HashBucket :=
  if s ≤ hashmod ∧ (b s).offset = 0 then { b s with hashValue := 0 } else b s

/-- `hash_index_recover`. -/
def hashIndexRecover (h : HashIndex) (docid : UInt32) : Option HashIndex :=
  if h.doclist.version ≠ dataStorageVersion then some h
  else
    let dl := h.doclist.clearFrom docid.toNat
    (relinkLoop dl docid.toNat (cutOffsets h (getOffset docid.toNat))).map fun b =>
      { h with doclist := dl, bucket := freeBuckets h.hashmod b }

/-! ## §2. The ends of chains. -/

section Ends

variable {l : Doclist} {b : Nat}

theorem Chained.upLinked : ∀ {cs : List Cell} {c : Cell}, Chained l b (c :: cs) →
    (∀ e ∈ cs, e.pos < cellBound) →
    Linked l.upLink (cellAddr c.pos :: cs.map fun e => cellAddr e.pos)
  | [], c, h, _ => by
    show l.upLink _ = none
    unfold Doclist.upLink
    rw [h.2, flagged_endMark]
    rfl
  | e :: cs, c, h, hb => by
    have he : e.pos < cellBound := hb e mem_cons_self
    refine ⟨?_, Chained.upLinked h.2.2.2.2 fun x hx => hb x (mem_cons_of_mem _ hx)⟩
    unfold Doclist.upLink
    rw [h.2.1, flagged_getOffset he, getOffset_toNat he]
    rfl

theorem Chained.last_next : ∀ {cs : List Cell} {c : Cell}, Chained l b (c :: cs) →
    ∃ last, ((c :: cs).map fun e => cellAddr e.pos).getLast? = some last ∧
      l.next last = endMark b
  | [], c, h => ⟨_, rfl, h.2⟩
  | e :: cs, c, h => by
    obtain ⟨last, hlast, hnext⟩ := Chained.last_next h.2.2.2.2
    refine ⟨last, ?_, hnext⟩
    rw [map_cons, getLast?_cons, hlast]
    rfl

theorem Chained.chainEnd {c : Cell} {cs : List Cell} (h : Chained l b (c :: cs))
    (hb : ∀ e ∈ cs, e.pos < cellBound) (hlimit : c.pos < l.rowLimit) :
    ∃ last, l.chainEnd (cellAddr c.pos) = some last ∧ l.next last = endMark b := by
  obtain ⟨last, hlast, hnext⟩ := h.last_next
  refine ⟨last, ?_, hnext⟩
  have hlen := h.length_le
  unfold Doclist.chainEnd
  rw [follow_linked (h.upLinked hb) (by rw [length_map]; omega)]
  exact hlast

theorem Chained.suffix : ∀ {pre cs : List Cell}, Chained l b (pre ++ cs) → Chained l b cs
  | [], _, h => h
  | _ :: _, _, h => Chained.suffix h.tail

theorem Chained.next_ne_zero : ∀ {cs : List Cell} {c : Cell}, Chained l b (c :: cs) →
    (∀ e ∈ cs, e.pos < cellBound) → l.next (cellAddr c.pos) ≠ 0
  | [], _, h, _ => by
    rw [h.2]
    exact endMark_ne_zero b
  | e :: _, _, h, hb => by
    rw [h.2.1]
    exact getOffset_ne_zero (hb e mem_cons_self)

end Ends

/-! ## §3. Tight indexes. -/

/-- No bucket that is free has an offset, and every cell in use is in the
list of a bucket. -/
structure Tight (h : HashIndex) (docs : Nat → List UInt32) : Prop where
  free : ∀ s ≤ h.hashmod, h.key s = 0 → (h.bucket s).offset = 0
  cover : ∀ a, a ≠ 0 → h.doclist.word a ≠ 0 →
    ∃ s ≤ h.hashmod, ∃ e ∈ docs s, a = cellAddr e.toNat ∨ a = cellAddr e.toNat + 4
  version : h.doclist.version = dataStorageVersion

theorem new_word {hashmod limit : Nat} {hpos : 0 < hashmod} {hlt : 12 * (hashmod + 1) < 2 ^ 32}
    {a : Nat} (ha : a ≠ 0) : (HashIndex.new hashmod limit hpos hlt).doclist.word a = 0 := by
  show update (fun _ => (0 : UInt32)) 0 dataStorageVersion a = 0
  rw [update_of_ne ha]

theorem tight_new (hashmod limit : Nat) (hpos : 0 < hashmod) (hlt : 12 * (hashmod + 1) < 2 ^ 32) :
    Tight (HashIndex.new hashmod limit hpos hlt) (fun _ => []) where
  free := fun _ _ _ => rfl
  cover := fun _ ha hword => absurd (new_word ha) hword
  version := rfl

/-- An insert keeps the index tight. -/
theorem Tight.put {h : HashIndex} {docs : Nat → List UInt32} (ht : Tight h docs) {s : Nat}
    (hs : s ≤ h.hashmod) {k : UInt64} (hk : k ≠ 0) (d : UInt32) :
    Tight (h.put s k d (docs s)) (update docs s (d :: docs s)) where
  free := by
    intro t htm hkey
    rw [put_key] at hkey
    by_cases hts : t = s
    · rw [hts, update_self] at hkey
      exact absurd hkey hk
    · rw [update_of_ne hts] at hkey
      rw [put_bucket_of_ne _ hts]
      exact ht.free t htm hkey
  cover := by
    intro a ha hword
    by_cases had : a = cellAddr d.toNat ∨ a = cellAddr d.toNat + 4
    · exact ⟨s, hs, d, by rw [update_self]; exact mem_cons_self, had⟩
    · rw [not_or] at had
      have hsame : h.doclist.word a ≠ 0 := by
        rw [← word_setCell_of_ne h.doclist d (frontNext s (docs s)) had.1 had.2]
        exact hword
      obtain ⟨t, htm, e, he, hec⟩ := ht.cover a ha hsame
      refine ⟨t, htm, e, ?_, hec⟩
      by_cases hts : t = s
      · rw [hts, update_self]
        rw [hts] at he
        exact mem_cons_of_mem _ he
      · rw [update_of_ne hts]
        exact he
  version := ht.version

/-! ## §4. Inserts from a docid on. -/

/-- `h₂` came from `h₁` by inserts of docids from `d` on. -/
structure Beyond (d : Nat) (h₁ h₂ : HashIndex) : Prop where
  hashmod_eq : h₂.hashmod = h₁.hashmod
  limit_eq : h₂.limit = h₁.limit
  rowLimit_eq : h₂.doclist.rowLimit = h₁.doclist.rowLimit
  version_eq : h₂.doclist.version = h₁.doclist.version
  word : ∀ a, a < cellAddr d ∨ cellAddr h₁.limit ≤ a → h₂.doclist.word a = h₁.doclist.word a
  bucket : ∀ s, h₂.bucket s = h₁.bucket s ∨
    (s ≤ h₁.hashmod ∧ (∃ e, d ≤ e ∧ e < cellBound ∧ (h₂.bucket s).offset = getOffset e) ∧
      (h₁.key s ≠ 0 → h₂.key s = h₁.key s))

theorem Beyond.refl (d : Nat) (h : HashIndex) : Beyond d h h :=
  ⟨rfl, rfl, rfl, rfl, fun _ _ => rfl, fun _ => .inl rfl⟩

theorem Beyond.key {d : Nat} {h₁ h₂ : HashIndex} (hb : Beyond d h₁ h₂) {s : Nat}
    (hk : h₁.key s ≠ 0) : h₂.key s = h₁.key s := by
  rcases hb.bucket s with heq | ⟨-, -, hkey⟩
  · unfold HashIndex.key
    rw [heq]
  · exact hkey hk

/-- An insert from `d` on changes nothing below. -/
theorem Beyond.put {d : Nat} {h₁ h₂ : HashIndex} (hb : Beyond d h₁ h₂) {s : Nat} {k : UInt64}
    {e : UInt32} (ds : List UInt32) (hs : s ≤ h₂.hashmod) (hkey : h₂.key s = 0 ∨ h₂.key s = k)
    (hde : d ≤ e.toNat) (hcell : e.toNat < cellBound) (hlimit : e.toNat < h₂.limit) :
    Beyond d h₁ (h₂.put s k e ds) := by
  refine ⟨hb.hashmod_eq, hb.limit_eq, hb.rowLimit_eq, hb.version_eq, ?_, ?_⟩
  · intro a ha
    rw [← hb.word a ha]
    have hlim := hb.limit_eq
    exact word_setCell_of_ne h₂.doclist e _ (by unfold cellAddr at ha ⊢; omega)
      (by unfold cellAddr at ha ⊢; omega)
  · intro t
    by_cases hts : t = s
    · subst hts
      refine .inr ⟨hb.hashmod_eq ▸ hs, ⟨e.toNat, hde, hcell, ?_⟩, fun hk => ?_⟩
      · rw [put_bucket_self]
      · rw [put_key, update_self]
        have hsame := hb.key hk
        rcases hkey with h0 | h0
        · exact absurd (hsame.symm.trans h0) hk
        · exact h0.symm.trans hsame
    · have hbucket := hb.bucket t
      unfold HashIndex.key at hbucket ⊢
      rw [put_bucket_of_ne ds hts]
      exact hbucket

/-! ## §5. Recovery undoes these inserts. -/

section Undo

variable {d e f : UInt32} {fs : List UInt32} {h₁ h₂ : HashIndex} {docs : Nat → List UInt32}
  {b : Nat → HashBucket} {s : Nat} (hrep : Rep h₁ docs) (ht : Tight h₁ docs)
  (hmod : h₁.hashmod < 2 ^ 31) (hd : d.toNat < cellBound)
  (hlt : ∀ s ≤ h₁.hashmod, ∀ e ∈ docs s, e < d)

include hrep

section

include ht hlt

/-- The cells from `d` on are cleared. -/
theorem Beyond.clearFrom (hb : Beyond d.toNat h₁ h₂) :
    h₂.doclist.clearFrom d.toNat = h₁.doclist := by
  have hword : (h₂.doclist.clearFrom d.toNat).word = h₁.doclist.word := by
    funext a
    show (if cellAddr d.toNat ≤ a ∧ a < cellAddr h₂.doclist.rowLimit then 0
      else h₂.doclist.word a) = _
    rw [hb.rowLimit_eq, hrep.limit_eq]
    by_cases ha : cellAddr d.toNat ≤ a ∧ a < cellAddr h₁.limit
    · -- in `h₁` no cell from `d` on is in use
      rw [if_pos ha]
      by_contra hne
      obtain ⟨s, hs, e, he, hae⟩ := ht.cover a (by have := ha.1; unfold cellAddr at this; omega)
        (fun h0 => hne h0.symm)
      have hed := UInt32.lt_iff_toNat_lt.mp (hlt s hs e he)
      unfold cellAddr at ha hae
      omega
    · rw [if_neg ha]
      exact hb.word a (by omega)
  show (⟨h₂.doclist.rowLimit, h₂.doclist.version, (h₂.doclist.clearFrom d.toNat).word⟩ : Doclist)
    = ⟨h₁.doclist.rowLimit, h₁.doclist.version, h₁.doclist.word⟩
  rw [hword, hb.rowLimit_eq, hb.version_eq]

/-- While the buckets are relinked, each is as in `h₁`, or still without an
offset; the hash of a bucket in use is in place all along. -/
def Relinking (h₁ : HashIndex) (b : Nat → HashBucket) (s : Nat) : Prop :=
  b s = h₁.bucket s ∨
    (s ≤ h₁.hashmod ∧ (b s).offset = 0 ∧ (h₁.key s ≠ 0 → (b s).hashValue = h₁.key s))

include hd

theorem offset_lt (hs : s ≤ h₁.hashmod) : (h₁.bucket s).offset < getOffset d.toNat := by
  rw [UInt32.lt_iff_toNat_lt, getOffset_toNat hd]
  by_cases hk : h₁.key s = 0
  · rw [ht.free s hs hk, UInt32.toNat_zero]
    unfold cellAddr
    omega
  · obtain ⟨hne, hoff⟩ := hrep.head s hs hk
    rw [hoff]
    cases hds : docs s with
    | nil => exact absurd hds hne
    | cons e es =>
      have hmem : e ∈ docs s := by rw [hds]; exact mem_cons_self
      have hed := UInt32.lt_iff_toNat_lt.mp (hlt s hs e hmem)
      show (getOffset e.toNat).toNat < _
      rw [getOffset_toNat (hrep.bounded s hs e hmem).2]
      unfold cellAddr
      omega

theorem Beyond.cutOffsets (hb : Beyond d.toNat h₁ h₂) (s : Nat) :
    Relinking h₁ (cutOffsets h₂ (getOffset d.toNat)) s := by
  unfold Relinking DocDb.cutOffsets
  rw [hb.hashmod_eq]
  rcases hb.bucket s with heq | ⟨hs, ⟨e, hde, hcell, hoff⟩, hkey⟩
  · rw [heq]
    refine .inl (if_neg ?_)
    rintro ⟨hs, hle⟩
    exact absurd hle (UInt32.not_le.mpr (offset_lt hrep ht hd hlt hs))
  · have hle : getOffset d.toNat ≤ (h₂.bucket s).offset := by
      rw [hoff, UInt32.le_iff_toNat_le, getOffset_toNat hd, getOffset_toNat hcell]
      unfold cellAddr
      omega
    rw [if_pos ⟨hs, hle⟩]
    exact .inr ⟨hs, rfl, hkey⟩

end

theorem Rep.chainEnd (hs : s ≤ h₁.hashmod) (he : e ∈ docs s) :
    h₁.doclist.next (cellAddr e.toNat) ≠ 0 ∧
      ∃ last, h₁.doclist.chainEnd (cellAddr e.toNat) = some last ∧
        h₁.doclist.next last = endMark s := by
  obtain ⟨pre, post, hsplit⟩ := append_of_mem he
  have hchain := hrep.chained s hs
  rw [hsplit, map_append, map_cons] at hchain
  have hpost : ∀ c ∈ post.map ownCell, c.pos < cellBound :=
    forall_mem_map.mpr fun x hx => (hrep.bounded s hs x (by rw [hsplit]; simp [hx])).2
  have hlimit : e.toNat < h₁.doclist.rowLimit := by
    rw [hrep.limit_eq]
    exact (hrep.bounded s hs e he).1
  exact ⟨hchain.suffix.next_ne_zero hpost, hchain.suffix.chainEnd hpost hlimit⟩

theorem Rep.bucket_front (hs : s ≤ h₁.hashmod) (hds : docs s = f :: fs) :
    h₁.key s ≠ 0 ∧ (h₁.bucket s).offset = getOffset f.toNat := by
  have hk : h₁.key s ≠ 0 := by
    intro h0
    rw [hrep.empty s hs h0] at hds
    cases hds
  refine ⟨hk, ?_⟩
  rw [(hrep.head s hs hk).2, hds]
  rfl

theorem Rep.le_front (hs : s ≤ h₁.hashmod) (hds : docs s = f :: fs)
    (he : e ∈ docs s) : e = f ∨ e.toNat < f.toNat := by
  have hchain := hrep.chained s hs
  rw [hds] at hchain he
  rcases mem_cons.mp he with rfl | he
  · exact .inl rfl
  · exact .inr (hchain.below (ownCell e) (mem_map_of_mem he)).1

include hmod

theorem Rep.bucket_unique {t : Nat} (hs : s ≤ h₁.hashmod) (ht : t ≤ h₁.hashmod)
    (hes : e ∈ docs s) (het : e ∈ docs t) : s = t := by
  obtain ⟨-, last, hlast, hnext⟩ := hrep.chainEnd hs hes
  obtain ⟨-, last', hlast', hnext'⟩ := hrep.chainEnd ht het
  have hsame : last = last' := Option.some.inj (hlast.symm.trans hlast')
  have hmark : endMark s = endMark t := hnext.symm.trans (hsame ▸ hnext')
  rw [← endMark_bucket (Nat.lt_of_le_of_lt hs hmod), hmark,
    endMark_bucket (Nat.lt_of_le_of_lt ht hmod)]

theorem relinkCell_used (hs : s ≤ h₁.hashmod) (he : e ∈ docs s) (b : Nat → HashBucket) :
    relinkCell h₁.doclist e.toNat b = some (if (b s).offset < getOffset e.toNat then
      update b s { b s with offset := getOffset e.toNat } else b) := by
  obtain ⟨hused, last, hlast, hnext⟩ := hrep.chainEnd hs he
  unfold relinkCell
  rw [if_neg (fun h0 => hused h0.2), hlast, Option.map_some, hnext]
  simp only [endMark_bucket (Nat.lt_of_le_of_lt hs hmod)]

/-- The state of the relinking loop when the cells from `i` on are done: the
buckets whose newest docid is among these are as in `h₁`. -/
structure Relinked (h₁ : HashIndex) (docs : Nat → List UInt32) (i : Nat) (b : Nat → HashBucket) :
    Prop where
  each : ∀ s, Relinking h₁ b s
  done : ∀ s ≤ h₁.hashmod, ∀ f fs, docs s = f :: fs → i ≤ f.toNat → b s = h₁.bucket s

/-- A cell that is left leads its bucket if nothing newer does. -/
theorem Relinked.used (hb : Relinked h₁ docs (e.toNat + 1) b) (hs : s ≤ h₁.hashmod)
    (he : e ∈ docs s) :
    Relinked h₁ docs e.toNat (if (b s).offset < getOffset e.toNat then
      update b s { b s with offset := getOffset e.toNat } else b) := by
  have hcell := (hrep.bounded s hs e he).2
  obtain ⟨f, fs, hds⟩ := exists_cons_of_ne_nil (ne_nil_of_mem he)
  obtain ⟨hk, hoff⟩ := hrep.bucket_front hs hds
  -- other lists do not start with this docid
  have hother : ∀ t ≤ h₁.hashmod, t ≠ s → ∀ g gs, docs t = g :: gs → e.toNat ≤ g.toNat →
      b t = h₁.bucket t := by
    intro t ht hts g gs hdt hle
    refine hb.done t ht g gs hdt ?_
    rcases Nat.eq_or_lt_of_le hle with heq | hlt
    · have hge : g = e := UInt32.toNat_inj.mp heq.symm
      have hmem : e ∈ docs t := by rw [hdt, hge]; exact mem_cons_self
      exact absurd (hrep.bucket_unique hmod ht hs hmem he) hts
    · exact hlt
  by_cases hset : b s = h₁.bucket s
  · -- the bucket is relinked already, to this cell or a higher one
    have hle : ¬ (b s).offset < getOffset e.toNat := by
      rw [hset, hoff, UInt32.lt_iff_toNat_lt, getOffset_toNat hcell, getOffset_toNat
        (hrep.bounded s hs f (by rw [hds]; exact mem_cons_self)).2]
      unfold cellAddr
      rcases hrep.le_front hs hds he with rfl | hlt <;> omega
    rw [if_neg hle]
    refine ⟨hb.each, fun t ht g gs hdt hge => ?_⟩
    by_cases hts : t = s
    · rw [hts]
      exact hset
    · exact hother t ht hts g gs hdt hge
  · -- otherwise it has no offset yet, and this is its newest cell
    obtain ⟨-, hzero, hkey⟩ := (hb.each s).resolve_left hset
    have hfe : e = f := by
      rcases hrep.le_front hs hds he with heq | hlt
      · exact heq
      · exact absurd (hb.done s hs f fs hds hlt) hset
    have hnew : ({ b s with offset := getOffset e.toNat } : HashBucket) = h₁.bucket s := by
      rw [hfe, ← hoff]
      exact congrArg (HashBucket.mk · (h₁.bucket s).offset) (hkey hk)
    have hlt : (b s).offset < getOffset e.toNat := by
      rw [hzero, UInt32.lt_iff_toNat_lt, getOffset_toNat hcell]
      show 0 < _
      unfold cellAddr
      omega
    rw [if_pos hlt, hnew]
    have hself : update b s (h₁.bucket s) s = h₁.bucket s := update_self ..
    refine ⟨fun t => ?_, fun t ht g gs hdt hge => ?_⟩ <;>
      rcases eq_or_ne t s with rfl | hts
    · exact .inl hself
    · unfold Relinking
      rw [update_of_ne hts]
      exact hb.each t
    · exact hself
    · rw [update_of_ne hts]
      exact hother t ht hts g gs hdt hge

include ht

/-- The step lemma of the relinking loop. -/
theorem Relinked.step {i : Nat} (hb : Relinked h₁ docs (i + 1) b) :
    ∃ b', relinkCell h₁.doclist i b = some b' ∧ Relinked h₁ docs i b' := by
  by_cases hused : ∃ s ≤ h₁.hashmod, ∃ e ∈ docs s, e.toNat = i
  · obtain ⟨s, hs, e, he, rfl⟩ := hused
    exact ⟨_, relinkCell_used hrep hmod hs he b, hb.used hrep hmod hs he⟩
  · -- a cell that is in no list has both words 0
    have hzero : ∀ a, a = cellAddr i ∨ a = cellAddr i + 4 → h₁.doclist.word a = 0 := by
      intro a ha
      by_contra hne
      obtain ⟨s, hs, e, he, hae⟩ := ht.cover a (by unfold cellAddr at ha; omega) hne
      refine hused ⟨s, hs, e, he, ?_⟩
      unfold cellAddr at ha hae
      omega
    refine ⟨b, ?_, hb.each, fun s hs f fs hds hle => hb.done s hs f fs hds ?_⟩
    · unfold relinkCell
      exact if_pos ⟨hzero _ (.inl rfl), hzero _ (.inr rfl)⟩
    · rcases Nat.eq_or_lt_of_le hle with heq | hlt
      · exact absurd ⟨s, hs, f, by rw [hds]; exact mem_cons_self, heq.symm⟩ hused
      · exact hlt

theorem Relinked.loop :
    ∀ (i : Nat) (b : Nat → HashBucket), Relinked h₁ docs i b →
      ∃ b', relinkLoop h₁.doclist i b = some b' ∧ Relinked h₁ docs 0 b'
  | 0, b, hb => ⟨b, rfl, hb⟩
  | i + 1, b, hb => by
    obtain ⟨b₁, hstep, hb₁⟩ := hb.step hrep ht hmod
    obtain ⟨b', hloop, hb'⟩ := Relinked.loop i b₁ hb₁
    refine ⟨b', ?_, hb'⟩
    unfold relinkLoop
    rw [hstep]
    exact hloop

omit hmod in
/-- Buckets without cells are freed at the end. -/
theorem Relinked.freeBuckets (hb : Relinked h₁ docs 0 b) :
    freeBuckets h₁.hashmod b = h₁.bucket := by
  funext s
  unfold DocDb.freeBuckets
  by_cases hs : s ≤ h₁.hashmod
  · cases hds : docs s with
    | cons f fs =>
      obtain ⟨-, hoff⟩ := hrep.bucket_front hs hds
      have hcell := (hrep.bounded s hs f (by rw [hds]; exact mem_cons_self)).2
      rw [hb.done s hs f fs hds (Nat.zero_le _), if_neg ?_]
      rintro ⟨-, h0⟩
      exact getOffset_ne_zero hcell (hoff.symm.trans h0)
    | nil =>
      have hk : h₁.key s = 0 := by
        by_contra hk
        exact (hrep.head s hs hk).1 hds
      have hzero : h₁.bucket s = ⟨0, 0⟩ := by
        have hoff := ht.free s hs hk
        cases hbucket : h₁.bucket s with
        | mk k o =>
          unfold HashIndex.key at hk
          rw [hbucket] at hk hoff
          exact congrArg₂ HashBucket.mk hk hoff
      have hoff : (b s).offset = 0 := by
        rcases hb.each s with heq | ⟨-, h0, -⟩
        · rw [heq, hzero]
        · exact h0
      rw [if_pos ⟨hs, hoff⟩, hzero]
      exact congrArg (HashBucket.mk 0) hoff
  · rw [if_neg (fun hc => hs hc.1)]
    exact (hb.each s).resolve_right fun hc => hs hc.1

include hd hlt in
theorem recover_beyond (hb : Beyond d.toNat h₁ h₂) : hashIndexRecover h₂ d = some h₁ := by
  have hstart : Relinked h₁ docs d.toNat (cutOffsets h₂ (getOffset d.toNat)) := by
    refine ⟨hb.cutOffsets hrep ht hd hlt, fun s hs f fs hds hle => ?_⟩
    have hfd := UInt32.lt_iff_toNat_lt.mp (hlt s hs f (by rw [hds]; exact mem_cons_self))
    omega
  obtain ⟨b, hloop, hdone⟩ := Relinked.loop hrep ht hmod _ _ hstart
  unfold hashIndexRecover
  rw [if_neg (by rw [hb.version_eq, ht.version]; simp)]
  simp only [hb.clearFrom hrep ht hlt, hloop, Option.map_some]
  refine congrArg some (HashIndex.ext hb.hashmod_eq hb.limit_eq ?_ rfl)
  show DocDb.freeBuckets h₂.hashmod b = h₁.bucket
  rw [hb.hashmod_eq]
  exact hdone.freeBuckets hrep ht

end Undo

/-! ## §6. Runs. -/

section Runs

variable {hashmod limit : Nat} {hpos : 0 < hashmod} {hlt : 12 * (hashmod + 1) < 2 ^ 32}
  {ins : List (LowData × UInt32)} {h h₁ : HashIndex}

theorem tight_of_run (hasc : Ascending limit ins) (hk : ∀ i ∈ ins, getHashValue i.1 ≠ 0)
    (hrun : run insertStep (HashIndex.new hashmod limit hpos hlt) ins = some h) :
    ∃ docs, Indexed h docs ins ∧ Tight h docs ∧ h.limit = limit ∧ h.hashmod = hashmod := by
  refine (indexed_new hashmod limit hpos hlt).run_inv Tight (fun i => getHashValue i.1 ≠ 0) ?_
    (tight_new hashmod limit hpos hlt) ins hasc hk hrun
  intro g ds ds' s i ht hne hs _ _ _ hds
  rw [hds hne]
  exact ht.put hs hne i.2

theorem beyond_of_run {docs : Nat → List UInt32} {d : UInt32} (hi : Indexed h₁ docs ins)
    {more : List (LowData × UInt32)} (hasc : Ascending h₁.limit (ins ++ more))
    (hd : ∀ i ∈ more, d ≤ i.2) (hrun : run insertStep h₁ more = some h) :
    Beyond d.toNat h₁ h := by
  obtain ⟨_, -, hb, -⟩ := hi.run_inv (fun g _ => Beyond d.toNat h₁ g) (fun i => d ≤ i.2)
    (fun _ ds _ s _ hb hdi hs hkey hlimit hcell _ =>
      hb.put (ds s) hs hkey (UInt32.le_iff_toNat_le.mp hdi) hcell hlimit)
    (Beyond.refl _ h₁) more hasc hd hrun
  exact hb

/-- Inserts in order are those below `d` and the others. -/
theorem sorted_split (hsorted : (ins.map Prod.snd).Pairwise (· ≤ ·)) (d : UInt32) :
    ins.filter (·.2 < d) ++ ins.filter (d ≤ ·.2) = ins := by
  induction ins with
  | nil => rfl
  | cons i ins ih =>
    rw [map_cons, pairwise_cons] at hsorted
    by_cases hid : i.2 < d
    · have hnot : ¬ d ≤ i.2 := UInt32.not_le.mpr hid
      rw [filter_cons_of_pos (by simpa using hid), filter_cons_of_neg (by simpa using hid),
        cons_append, ih hsorted.2]
    · have hle : d ≤ i.2 := UInt32.not_lt.mp hid
      -- everything behind is larger still
      have hrest : ∀ j ∈ ins, d ≤ j.2 := fun j hj =>
        UInt32.le_trans hle (hsorted.1 j.2 (mem_map_of_mem hj))
      have hnone : ins.filter (·.2 < d) = [] := by
        rw [filter_eq_nil_iff]
        intro j hj
        simpa using hrest j hj
      have hall : ins.filter (d ≤ ·.2) = ins := by
        rw [filter_eq_self]
        intro j hj
        simpa using hrest j hj
      rw [filter_cons_of_neg (by simpa using hle), filter_cons_of_pos (by simpa using hle),
        hnone, hall]
      rfl

end Runs

/-- **RECOVERY TRUNCATES EXACTLY**: if no value below the cut hashes to 0,
`hash_index_recover` gives the very index that received only the inserts
below the cut. -/
theorem hash_index_recover_exact (hashmod limit : Nat) (hpos : 0 < hashmod)
    (hlt : 12 * (hashmod + 1) < 2 ^ 32) (ins : List (LowData × UInt32))
    (hasc : Ascending limit ins) (h : HashIndex)
    (hrun : run insertStep (HashIndex.new hashmod limit hpos hlt) ins = some h)
    (d : UInt32) (hd : d.toNat < limit ∧ d.toNat < cellBound)
    (hk : ∀ i ∈ ins, i.2 < d → getHashValue i.1 ≠ 0) :
    ∃ h₁, run insertStep (HashIndex.new hashmod limit hpos hlt) (ins.filter (·.2 < d)) = some h₁ ∧
      hashIndexRecover h d = some h₁ := by
  have hsplit := sorted_split (hasc.sorted.imp UInt32.le_of_lt) d
  rw [← hsplit, run_append] at hrun
  obtain ⟨h₁, hrun₁, hrun₂⟩ := Option.bind_eq_some_iff.mp hrun
  refine ⟨h₁, hrun₁, ?_⟩
  have hbelow : ∀ i ∈ ins.filter (·.2 < d), i ∈ ins ∧ i.2 < d := by
    intro i hi
    simpa using hi
  have hasc₁ : Ascending limit (ins.filter (·.2 < d)) :=
    ⟨hasc.sorted.sublist (filter_sublist.map Prod.snd),
      fun i hi => hasc.below i (hbelow i hi).1⟩
  obtain ⟨docs, hi, ht, hlim, hmod₁⟩ := tight_of_run hasc₁
    (fun i hi => hk i (hbelow i hi).1 (hbelow i hi).2) hrun₁
  have hb : Beyond d.toNat h₁ h := by
    refine beyond_of_run hi (by rw [hlim, hsplit]; exact hasc) ?_ hrun₂
    intro i hi
    simpa using (mem_filter.mp hi).2
  exact recover_beyond hi.rep ht (by have := h₁.hashmod_lt; omega) hd.2
    (hi.docs_lt fun j hj => (hbelow j hj).2) hb

theorem hash_index_recover_exact_three_inserts :
    ∃ h h₁, run insertStep (hashIndexInit 4 (by decide) (by decide))
        [(tinyValue 5, 0), (nullValue, 1), (tinyValue 5, 3)] = some h ∧
      run insertStep (hashIndexInit 4 (by decide) (by decide))
        [(tinyValue 5, 0), (nullValue, 1)] = some h₁ ∧
      hashIndexRecover h 2 = some h₁ := by
  obtain ⟨h, hrun⟩ := Option.isSome_iff_exists.mp
    (show (run insertStep (hashIndexInit 4 (by decide) (by decide))
      [(tinyValue 5, 0), (nullValue, 1), (tinyValue 5, 3)]).isSome = true by decide)
  obtain ⟨h₁, hrun₁, hrecover⟩ := hash_index_recover_exact 4 4 (by decide) (by decide)
    _ (by decide) h hrun 2 (by decide) (by decide)
  exact ⟨h, h₁, hrun, hrun₁, hrecover⟩

/-- A value whose hash is 0 at docid 0 and another one at docid 1 share the
bucket; cut back to docid 1, the index answers for the second value with the
docid of the first. -/
theorem recover_keeps_wrong_docid :
    ∃ h h' h₁, run insertStep (hashIndexInit 2 (by decide) (by decide))
        [(lowestValue, 0), (tinyValue 4, 1)] = some h ∧
      run insertStep (hashIndexInit 2 (by decide) (by decide)) [(lowestValue, 0)] = some h₁ ∧
      hashIndexRecover h 1 = some h' ∧
      hashIndexQuery (S := Unit) h₁ (tinyValue 4) = some none ∧
      ∃ r : RowidList Unit, hashIndexQuery h' (tinyValue 4) = some (some r) ∧ Holds r [0] := by
  refine ⟨_, _, _, rfl, rfl, rfl, rfl, _, rfl, rfl, ?_⟩
  intro i hi
  obtain rfl : i = 0 := by simpa using hi
  rfl

end Mile.DocDb
