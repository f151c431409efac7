/-
  Mile.DocDb.HashIndexReject
  ──────────────────────────
  **REJECTED INSERTS** of the hash index.

  Docids need not come in order here, and recovery may have cut the index back: a chain can run
  into another one's cells.  What stays true is `Sound`.
-/
import Mile.DocDb.HashIndexRecover

namespace Mile.DocDb

open Lib Common List Function

/-! ## §1. Sound indexes. -/

def Doclist.Used (l : Doclist) (c : Nat) : Prop := l.next (cellAddr c) ≠ 0

/-- Cells lead downwards, and buckets to cells. -/
structure Sound (h : HashIndex) : Prop where
  limit_eq : h.doclist.rowLimit = h.limit
  unused : ∀ c, ¬ h.doclist.Used c → h.doclist.docId (cellAddr c) = 0
  bounded : ∀ c, h.doclist.Used c → c < h.limit ∧ c < cellBound
  docId : ∀ c, h.doclist.Used c → h.doclist.docId (cellAddr c) = UInt32.ofNat c
  next : ∀ c, h.doclist.Used c → (∃ b, h.doclist.next (cellAddr c) = endMark b) ∨
    ∃ e < c, h.doclist.next (cellAddr c) = getOffset e ∧ h.doclist.Used e
  bucket : ∀ s ≤ h.hashmod, h.key s ≠ 0 →
    ∃ c, (h.bucket s).offset = getOffset c ∧ h.doclist.Used c

theorem sound_new (hashmod limit : Nat) (hpos : 0 < hashmod) (hlt : 12 * (hashmod + 1) < 2 ^ 32) :
    Sound (HashIndex.new hashmod limit hpos hlt) := by
  have hzero : ∀ a, a ≠ 0 → (HashIndex.new hashmod limit hpos hlt).doclist.word a = 0 :=
    fun a ha => new_word ha
  have hunused : ∀ c, ¬ (HashIndex.new hashmod limit hpos hlt).doclist.Used c := fun c hc =>
    hc (hzero _ (by unfold cellAddr; omega))
  exact ⟨rfl, fun c _ => hzero _ (by unfold cellAddr; omega), fun c hc => absurd hc (hunused c),
    fun c hc => absurd hc (hunused c), fun c hc => absurd hc (hunused c),
    fun _ _ hk => absurd rfl hk⟩

section Sound

variable {h : HashIndex} {s : Nat} {k : UInt64} {d : UInt32}

theorem toNat_ofNat_of_cell {c : Nat} (hc : c < cellBound) : (UInt32.ofNat c).toNat = c := by
  unfold cellBound at hc
  rw [UInt32.toNat_ofNat']
  omega

theorem ownCell_ofNat {c : Nat} (hc : c < cellBound) :
    ownCell (UInt32.ofNat c) = ⟨c, UInt32.ofNat c⟩ := by
  unfold ownCell
  rw [toNat_ofNat_of_cell hc]

/-- Every used cell leads a chain. -/
theorem Sound.chained (hsound : Sound h) : ∀ c, h.doclist.Used c →
    ∃ b ds, Chained h.doclist b ((UInt32.ofNat c :: ds).map ownCell) ∧
      ∀ e ∈ ds, e.toNat < h.limit ∧ e.toNat < cellBound := by
  intro c
  induction c using Nat.strongRecOn with
  | ind c ih =>
    intro hc
    have hcell := (hsound.bounded c hc).2
    rcases hsound.next c hc with ⟨b, hend⟩ | ⟨e, hec, hnext, he⟩
    · refine ⟨b, [], ?_, fun x hx => nomatch hx⟩
      rw [map_cons, ownCell_ofNat hcell]
      exact ⟨hsound.docId c hc, hend⟩
    · obtain ⟨b, ds, hchain, hbound⟩ := ih e hec he
      have hecell := (hsound.bounded e he)
      refine ⟨b, UInt32.ofNat e :: ds, ?_, ?_⟩
      · simp only [map_cons, ownCell_ofNat hcell, ownCell_ofNat hecell.2] at hchain ⊢
        refine ⟨hsound.docId c hc, hnext, hec, ?_, hchain⟩
        show UInt32.ofNat e < UInt32.ofNat c
        rw [UInt32.lt_iff_toNat_lt, toNat_ofNat_of_cell hcell, toNat_ofNat_of_cell hecell.2]
        exact hec
      · intro x hx
        rcases mem_cons.mp hx with rfl | hx
        · rw [toNat_ofNat_of_cell hecell.2]
          exact hecell
        · exact hbound x hx

/-- Every bucket leads a chain. -/
theorem Sound.bucketHolds (hsound : Sound h) (hs : s ≤ h.hashmod) : ∃ ds, BucketHolds h s ds := by
  by_cases hk : h.key s = 0
  · exact ⟨[], fun _ => rfl, fun hne => absurd hk hne, ⟨0, trivial⟩, fun _ hx => nomatch hx⟩
  · obtain ⟨c, hoff, hc⟩ := hsound.bucket s hs hk
    obtain ⟨b, ds, hchain, hbound⟩ := hsound.chained c hc
    have hcell := hsound.bounded c hc
    refine ⟨UInt32.ofNat c :: ds, fun h0 => absurd h0 hk, fun _ => ⟨cons_ne_nil _ _, ?_⟩,
      ⟨b, hchain⟩, ?_⟩
    · rw [hoff, frontOffset_cons, toNat_ofNat_of_cell hcell.2]
    · intro x hx
      rw [hsound.limit_eq]
      rcases mem_cons.mp hx with rfl | hx
      · rw [toNat_ofNat_of_cell hcell.2]
        exact hcell
      · exact hbound x hx

variable {ds : List UInt32}

theorem BucketHolds.used {e : UInt32} (hs : BucketHolds h s (e :: ds)) :
    h.doclist.Used e.toNat := by
  obtain ⟨b, hchain⟩ := hs.chained
  exact hchain.next_ne_zero (forall_mem_map.mpr fun x hx =>
    (hs.bounded x (mem_cons_of_mem _ hx)).2)

theorem BucketHolds.put (hs : BucketHolds h s ds) (hk : k ≠ 0)
    (hd : d.toNat < h.doclist.rowLimit ∧ d.toNat < cellBound) (hlt : ∀ e ∈ ds, e < d) :
    BucketHolds (h.put s k d ds) s (d :: ds) := by
  obtain ⟨b, hchain⟩ := hs.chained
  refine ⟨fun h0 => ?_, fun _ => ⟨cons_ne_nil _ _, ?_⟩, ?_, ?_⟩
  · rw [put_key, update_self] at h0
    exact absurd h0 hk
  · rw [put_bucket_self]
    rfl
  · cases ds with
    | nil => exact ⟨s, chained_setCell_single _ s d.toNat d⟩
    | cons e es => exact ⟨b, hchain.front_docid hlt⟩
  · intro x hx
    rcases mem_cons.mp hx with rfl | hx
    · exact hd
    · exact hs.bounded x hx

theorem frontNext_ne_zero (hb : ∀ e ∈ ds, e.toNat < cellBound) : frontNext s ds ≠ 0 := by
  cases ds with
  | nil => exact endMark_ne_zero s
  | cons e es => exact getOffset_ne_zero (hb e mem_cons_self)

/-- A docid above the chain is put in front of it. -/
theorem Sound.put (hsound : Sound h) (hs : BucketHolds h s ds)
    (hd : d.toNat < h.limit ∧ d.toNat < cellBound) (hlt : ∀ e ∈ ds, e < d) :
    Sound (h.put s k d ds) := by
  have hself : (h.put s k d ds).doclist.Used d.toNat := by
    show (h.doclist.setCell d.toNat d (frontNext s ds)).next _ ≠ 0
    rw [next_setCell_self]
    exact frontNext_ne_zero fun e he => (hs.bounded e he).2
  have hother : ∀ c, c ≠ d.toNat →
      (h.put s k d ds).doclist.next (cellAddr c) = h.doclist.next (cellAddr c) := fun c hc =>
    next_setCell_of_ne h.doclist d _ hc
  have hkeep : ∀ c, h.doclist.Used c → (h.put s k d ds).doclist.Used c := by
    intro c hc
    by_cases hcd : c = d.toNat
    · rw [hcd]
      exact hself
    · unfold Doclist.Used
      rw [hother c hcd]
      exact hc
  have hback : ∀ c, c ≠ d.toNat → (h.put s k d ds).doclist.Used c → h.doclist.Used c := by
    intro c hcd hc
    unfold Doclist.Used at hc
    rw [hother c hcd] at hc
    exact hc
  refine ⟨hsound.limit_eq, ?_, ?_, ?_, ?_, ?_⟩
  · intro c hc
    have hcd : c ≠ d.toNat := fun heq => hc (heq ▸ hself)
    refine (docId_setCell_of_ne h.doclist d _ hcd).trans ?_
    exact hsound.unused c fun hused => hc (hkeep c hused)
  · intro c hc
    by_cases hcd : c = d.toNat
    · rw [hcd]
      exact hd
    · exact hsound.bounded c (hback c hcd hc)
  · intro c hc
    by_cases hcd : c = d.toNat
    · subst hcd
      rw [UInt32.ofNat_toNat]
      exact docId_setCell_self h.doclist _ d _
    · refine (docId_setCell_of_ne h.doclist d _ hcd).trans ?_
      exact hsound.docId c (hback c hcd hc)
  · intro c hc
    by_cases hcd : c = d.toNat
    · -- the new cell ends a chain, or leads to the newest cell before
      subst hcd
      have hnext : (h.put s k d ds).doclist.next (cellAddr d.toNat) = frontNext s ds :=
        next_setCell_self h.doclist _ d _
      rw [hnext]
      cases ds with
      | nil => exact .inl ⟨s, rfl⟩
      | cons e es =>
        refine .inr ⟨e.toNat, ?_, rfl, hkeep _ hs.used⟩
        exact UInt32.lt_iff_toNat_lt.mp (hlt e mem_cons_self)
    · rw [hother c hcd]
      rcases hsound.next c (hback c hcd hc) with hend | ⟨e, hec, hnext, he⟩
      · exact .inl hend
      · exact .inr ⟨e, hec, hnext, hkeep e he⟩
  · intro t ht hkt
    by_cases hts : t = s
    · subst hts
      rw [put_bucket_self]
      exact ⟨d.toNat, rfl, hself⟩
    · rw [put_key, update_of_ne hts] at hkt
      rw [put_bucket_of_ne _ hts]
      obtain ⟨c, hoff, hc⟩ := hsound.bucket t ht hkt
      exact ⟨c, hoff, hkeep c hc⟩

end Sound

/-! ## §2. Recovery keeps the index sound. -/

section Recover

variable {h : HashIndex} {d : UInt32}

theorem clearFrom_word_of_lt (l : Doclist) {cell c : Nat} (hc : c < cell) :
    (l.clearFrom cell).docId (cellAddr c) = l.docId (cellAddr c) ∧
      (l.clearFrom cell).next (cellAddr c) = l.next (cellAddr c) := by
  constructor
  · exact if_neg (by unfold cellAddr; omega)
  · exact if_neg (by unfold cellAddr; omega)

variable (hsound : Sound h)

include hsound

theorem Sound.clearFrom_zero {c cell : Nat} (hc : cell ≤ c) :
    (h.doclist.clearFrom cell).docId (cellAddr c) = 0 ∧
      (h.doclist.clearFrom cell).next (cellAddr c) = 0 := by
  by_cases hlim : c < h.limit
  · rw [← hsound.limit_eq] at hlim
    constructor
    · exact if_pos (by unfold cellAddr; omega)
    · exact if_pos (by unfold cellAddr; omega)
  · -- behind the last cell nothing was ever written
    have hunused : ¬ h.doclist.Used c := fun hused => hlim (hsound.bounded c hused).1
    have hlim' := hsound.limit_eq
    constructor
    · refine (if_neg (by unfold cellAddr; omega)).trans ?_
      exact hsound.unused c hunused
    · refine (if_neg (by unfold cellAddr; omega)).trans ?_
      exact not_not.mp hunused

theorem Sound.used_clearFrom {c cell : Nat} :
    (h.doclist.clearFrom cell).Used c ↔ c < cell ∧ h.doclist.Used c := by
  by_cases hc : c < cell
  · unfold Doclist.Used
    rw [(clearFrom_word_of_lt h.doclist hc).2]
    exact ⟨fun hu => ⟨hc, hu⟩, fun hu => hu.2⟩
  · refine ⟨fun hu => absurd (hsound.clearFrom_zero (Nat.le_of_not_lt hc)).2 hu, fun hu => ?_⟩
    exact absurd hu.1 hc

def BucketsLead (l : Doclist) (hashmod : Nat) (b : Nat → HashBucket) : Prop :=
  ∀ s ≤ hashmod, (b s).hashValue ≠ 0 → (b s).offset = 0 ∨
    ∃ c, (b s).offset = getOffset c ∧ l.Used c

variable {b : Nat → HashBucket}

/-- Clearing the newer cells keeps the index sound. -/
theorem Sound.clearFrom (cell : Nat) (hb : BucketsLead (h.doclist.clearFrom cell) h.hashmod b) :
    Sound { h with doclist := h.doclist.clearFrom cell, bucket := freeBuckets h.hashmod b } := by
  refine ⟨hsound.limit_eq, ?_, ?_, ?_, ?_, ?_⟩
  · intro c hc
    by_cases hlt : c < cell
    · show (h.doclist.clearFrom cell).docId _ = 0
      rw [(clearFrom_word_of_lt h.doclist hlt).1]
      exact hsound.unused c fun hu => hc (hsound.used_clearFrom.mpr ⟨hlt, hu⟩)
    · exact (hsound.clearFrom_zero (Nat.le_of_not_lt hlt)).1
  · intro c hc
    exact hsound.bounded c (hsound.used_clearFrom.mp hc).2
  · intro c hc
    obtain ⟨hlt, hu⟩ := hsound.used_clearFrom.mp hc
    show (h.doclist.clearFrom cell).docId _ = _
    rw [(clearFrom_word_of_lt h.doclist hlt).1]
    exact hsound.docId c hu
  · intro c hc
    obtain ⟨hlt, hu⟩ := hsound.used_clearFrom.mp hc
    show (∃ b, (h.doclist.clearFrom cell).next _ = _) ∨
      ∃ e < c, (h.doclist.clearFrom cell).next _ = _ ∧ (h.doclist.clearFrom cell).Used e
    rw [(clearFrom_word_of_lt h.doclist hlt).2]
    rcases hsound.next c hu with hend | ⟨e, hec, hnext, he⟩
    · exact .inl hend
    · exact .inr ⟨e, hec, hnext, hsound.used_clearFrom.mpr ⟨Nat.lt_trans hec hlt, he⟩⟩
  · intro s hs hk
    -- a bucket that leads nowhere has been freed
    have hkey : (freeBuckets h.hashmod b s).hashValue ≠ 0 := hk
    show ∃ c, (freeBuckets h.hashmod b s).offset = getOffset c ∧ _
    unfold freeBuckets at hkey ⊢
    by_cases hoff : s ≤ h.hashmod ∧ (b s).offset = 0
    · rw [if_pos hoff] at hkey
      exact absurd rfl hkey
    · rw [if_neg hoff] at hkey ⊢
      exact (hb s hs hkey).resolve_left fun h0 => hoff ⟨hs, h0⟩

theorem Sound.cutOffsets (hd : d.toNat < cellBound) :
    BucketsLead (h.doclist.clearFrom d.toNat) h.hashmod (cutOffsets h (getOffset d.toNat)) := by
  intro s hs hk
  unfold DocDb.cutOffsets at hk ⊢
  by_cases hle : s ≤ h.hashmod ∧ getOffset d.toNat ≤ (h.bucket s).offset
  · rw [if_pos hle]
    exact .inl rfl
  · rw [if_neg hle] at hk ⊢
    obtain ⟨c, hoff, hc⟩ := hsound.bucket s hs hk
    have hlt : (h.bucket s).offset < getOffset d.toNat := UInt32.not_le.mp fun hc => hle ⟨hs, hc⟩
    rw [hoff, UInt32.lt_iff_toNat_lt, getOffset_toNat hd,
      getOffset_toNat (hsound.bounded c hc).2] at hlt
    refine .inr ⟨c, hoff, hsound.used_clearFrom.mpr ⟨?_, hc⟩⟩
    unfold cellAddr at hlt
    omega

/-- One cell of the relinking loop. -/
theorem Sound.relinkCell (i : Nat) {m : Nat} (hb : BucketsLead h.doclist m b) :
    ∃ b', relinkCell h.doclist i b = some b' ∧ BucketsLead h.doclist m b' := by
  unfold DocDb.relinkCell
  by_cases hused : h.doclist.Used i
  · obtain ⟨c, ds, hchain, hbound⟩ := hsound.chained i hused
    have hi := hsound.bounded i hused
    rw [map_cons, ownCell_ofNat hi.2] at hchain
    obtain ⟨last, hlast, -⟩ := hchain.chainEnd (forall_mem_map.mpr fun x hx => (hbound x hx).2)
      (by rw [hsound.limit_eq]; exact hi.1)
    rw [if_neg (fun h0 => hused h0.2), hlast, Option.map_some]
    refine ⟨_, rfl, ?_⟩
    simp only
    split
    · intro s hs hk
      by_cases hsb : s = (h.doclist.next last &&& 0x7FFFFFFF).toNat
      · rw [hsb, update_self]
        exact .inr ⟨i, rfl, hused⟩
      · rw [update_of_ne hsb] at hk ⊢
        exact hb s hs hk
    · exact hb
  · rw [if_pos ⟨hsound.unused i hused, not_not.mp hused⟩]
    exact ⟨b, rfl, hb⟩

theorem Sound.relinkLoop {m : Nat} :
    ∀ (i : Nat) (b : Nat → HashBucket), BucketsLead h.doclist m b →
      ∃ b', relinkLoop h.doclist i b = some b' ∧ BucketsLead h.doclist m b'
  | 0, b, hb => ⟨b, rfl, hb⟩
  | i + 1, b, hb => by
    obtain ⟨b₁, hstep, hb₁⟩ := hsound.relinkCell i hb
    obtain ⟨b', hloop, hb'⟩ := Sound.relinkLoop i b₁ hb₁
    refine ⟨b', ?_, hb'⟩
    unfold DocDb.relinkLoop
    rw [hstep]
    exact hloop

theorem Sound.recover (hd : d.toNat < cellBound) :
    ∃ h', hashIndexRecover h d = some h' ∧ Sound h' ∧ h'.limit = h.limit := by
  unfold hashIndexRecover
  by_cases hversion : h.doclist.version ≠ dataStorageVersion
  · rw [if_pos hversion]
    exact ⟨h, rfl, hsound, rfl⟩
  · rw [if_neg hversion]
    have hcut := hsound.cutOffsets hd
    obtain ⟨b, hloop, hb⟩ := (hsound.clearFrom d.toNat hcut).relinkLoop d.toNat _ hcut
    simp only at hloop hb
    simp only [hloop, Option.map_some]
    exact ⟨_, rfl, hsound.clearFrom d.toNat hb, rfl⟩

end Recover

/-! ## §3. What an insert can do. -/

section Outcome

variable {h : HashIndex} {s : Nat} {v : LowData} {d : UInt32} {ds : List UInt32}

theorem BucketHolds.front_cases (hs : BucketHolds h s ds) (d : UInt32) :
    (∀ e ∈ ds, e < d) ∨ ∃ e es, ds = e :: es ∧ d ≤ e := by
  cases ds with
  | nil => exact .inl fun _ he => nomatch he
  | cons e es =>
    by_cases hle : d ≤ e
    · exact .inr ⟨e, es, rfl, hle⟩
    · obtain ⟨b, hchain⟩ := hs.chained
      have hed : e < d := UInt32.not_le.mp hle
      refine .inl fun x hx => ?_
      rcases mem_cons.mp hx with rfl | hx
      · exact hed
      · exact UInt32.lt_trans (hchain.below (ownCell x) (mem_map_of_mem hx)).2 hed

variable {e : UInt32} {es : List UInt32} {S : Type}

theorem BucketHolds.newest (hs : BucketHolds h s (e :: es)) :
    h.key s ≠ 0 ∧ (h.bucket s).offset = frontOffset (e :: es) ∧ e.toNat < cellBound ∧
      h.doclist.docId (cellAddr e.toNat) = e := by
  have hk : h.key s ≠ 0 := fun h0 => cons_ne_nil _ _ (hs.empty h0)
  obtain ⟨b, hchain⟩ := hs.chained
  exact ⟨hk, (hs.head hk).2, (hs.bounded e mem_cons_self).2,
    hchain.docId_eq (ownCell e) mem_cons_self⟩

theorem bucketInsert_refused (hs : BucketHolds h s (e :: es))
    (hle : d ≤ e) (k : UInt64) : bucketInsert h s k d = (h, .errorInsertRepeat) := by
  obtain ⟨hk, hoff, hcell, -⟩ := hs.newest
  obtain ⟨b, hchain⟩ := hs.chained
  have hk' : (h.bucket s).hashValue ≠ 0 := hk
  unfold bucketInsert
  simp only [if_neg hk', hoff, doclistInsert_refused hchain hcell hle, if_true]

theorem nullInsert_refused (hs : BucketHolds h h.hashmod (e :: es)) (hle : d ≤ e) (k : UInt64) :
    nullInsert h k d = (h.set h.hashmod ⟨h.key h.hashmod, 0⟩ h.doclist, .success) := by
  obtain ⟨hk, hoff, hcell, -⟩ := hs.newest
  obtain ⟨b, hchain⟩ := hs.chained
  have hk' : (h.bucket h.hashmod).hashValue ≠ 0 := hk
  unfold nullInsert
  simp only [if_neg hk', hoff, doclistInsert_refused hchain hcell hle]
  rfl

theorem nullInsert_used (hk : h.key h.hashmod ≠ 0) (k : UInt64) (d : UInt32) :
    nullInsert h k d = nullInsert h (h.key h.hashmod) d := by
  have hk' : (h.bucket h.hashmod).hashValue ≠ 0 := hk
  unfold nullInsert
  rw [if_neg hk', if_neg hk']

theorem hashIndexInsert_null (hlen : v.len = 0) (d : UInt32) :
    hashIndexInsert h v d = nullInsert h nullHash d := by
  unfold hashIndexInsert
  simp only [if_pos hlen, getHashValue_null hlen]

theorem hashIndexInsert_found (hlen : v.len ≠ 0) (hfind : h.find (getHashValue v) = some s)
    (d : UInt32) : hashIndexInsert h v d = bucketInsert h s (getHashValue v) d := by
  unfold hashIndexInsert
  simp only [if_neg hlen, hfind]

theorem hashIndexQuery_null (hlen : v.len = 0) :
    hashIndexQuery (S := S) h v = readBucket h h.hashmod := by
  unfold hashIndexQuery
  rw [if_pos hlen]

theorem hashIndexQuery_found (hlen : v.len ≠ 0) (hfind : h.find (getHashValue v) = some s) :
    hashIndexQuery (S := S) h v = readBucket h s := by
  unfold hashIndexQuery
  simp only [if_neg hlen, hfind]

theorem find_put {k : UInt64} (hfind : h.find k = some s) : (h.put s k d ds).find k = some s := by
  unfold HashIndex.find
  rw [put_key]
  exact findSlot_update_self (homeOf_lt h) hfind

/-- **The insert extended the answer** for its value by the docid. -/
def Added (S : Type) (h : HashIndex) (v : LowData) (d : UInt32) : Prop :=
  (hashIndexInsert h v d).2 = .success ∧
    ∃ (ds : List UInt32) (r r' : Option (RowidList S)),
      hashIndexQuery h v = some r ∧ ResultHolds r ds ∧
      hashIndexQuery (hashIndexInsert h v d).1 v = some r' ∧ ResultHolds r' (d :: ds)

/-- **The insert returned an error** and left the index as it was. -/
def Rejected (h : HashIndex) (v : LowData) (d : UInt32) : Prop :=
  (hashIndexInsert h v d).2 ≠ .success ∧ (hashIndexInsert h v d).1 = h

/-- The inserts that are added or rejected: of a value without bytes, those
above the newest docid of its bucket; of other values, those whose hash is
not 0, or for which the table is full. -/
abbrev CleanInsert (h : HashIndex) (v : LowData) (d : UInt32) : Prop :=
  if v.len = 0 then
    h.key h.hashmod = 0 ∨ h.doclist.docId (h.bucket h.hashmod).offset.toNat < d
  else getHashValue v ≠ 0 ∨ ∀ s < h.hashmod, h.key s ≠ 0

theorem Sound.null_put (hsound : Sound h) (hlen : v.len = 0)
    (hd : d.toNat < h.limit ∧ d.toNat < cellBound) (hclean : CleanInsert h v d) :
    ∃ ds k, k ≠ 0 ∧ BucketHolds h h.hashmod ds ∧ (∀ e ∈ ds, e < d) ∧
      hashIndexInsert h v d = (h.put h.hashmod k d ds, .success) := by
  obtain ⟨ds, hs⟩ := hsound.bucketHolds (le_refl h.hashmod)
  have hlt : ∀ e ∈ ds, e < d := by
    rcases hs.front_cases d with hlt | ⟨e, es, rfl, hle⟩
    · exact hlt
    · obtain ⟨hk, hoff, hcell, hdoc⟩ := hs.newest
      unfold CleanInsert at hclean
      rw [if_pos hlen, hoff, frontOffset_cons, getOffset_toNat hcell, hdoc] at hclean
      exact absurd hle (UInt32.not_le.mpr (hclean.resolve_left hk))
  rw [hashIndexInsert_null hlen]
  by_cases hk : h.key h.hashmod = 0
  · exact ⟨ds, nullHash, nullHash_ne_zero, hs, hlt, nullInsert_eq_put hs (.inl hk) hd.2 hlt⟩
  · rw [nullInsert_used hk]
    exact ⟨ds, h.key h.hashmod, hk, hs, hlt, nullInsert_eq_put hs (.inr rfl) hd.2 hlt⟩

/-- A clean insert is rejected or put in front of a chain. -/
theorem Sound.hash_cases (hsound : Sound h) (hlen : v.len ≠ 0)
    (hd : d.toNat < h.limit ∧ d.toNat < cellBound) (hclean : CleanInsert h v d) :
    Rejected h v d ∨ ∃ s ds, h.find (getHashValue v) = some s ∧ getHashValue v ≠ 0 ∧
      s ≤ h.hashmod ∧ BucketHolds h s ds ∧ (∀ e ∈ ds, e < d) ∧
      hashIndexInsert h v d = (h.put s (getHashValue v) d ds, .success) := by
  cases hfind : h.find (getHashValue v) with
  | none =>
    refine .inl ?_
    unfold Rejected hashIndexInsert
    simp [hlen, hfind]
  | some s =>
    obtain ⟨hs, hkey⟩ := findSlot_some (homeOf_lt h) hfind
    have hk : getHashValue v ≠ 0 := by
      unfold CleanInsert at hclean
      rw [if_neg hlen] at hclean
      intro h0
      rw [h0] at hkey
      exact hclean.resolve_left (not_not.mpr h0) s hs (hkey.elim id id)
    obtain ⟨ds, hholds⟩ := hsound.bucketHolds (Nat.le_of_lt hs)
    rcases hholds.front_cases d with hlt | ⟨e, es, rfl, hle⟩
    · refine .inr ⟨s, ds, rfl, hk, Nat.le_of_lt hs, hholds, hlt, ?_⟩
      rw [hashIndexInsert_found hlen hfind, bucketInsert_eq_put hholds hkey hd.2 hlt]
    · refine .inl ?_
      unfold Rejected
      rw [hashIndexInsert_found hlen hfind, bucketInsert_refused hholds hle]
      exact ⟨ResultCode.noConfusion, rfl⟩

theorem added_of_put {k : UInt64} (hk : k ≠ 0) (hs : BucketHolds h s ds)
    (hd : d.toNat < h.doclist.rowLimit ∧ d.toNat < cellBound) (hlt : ∀ e ∈ ds, e < d)
    (hins : hashIndexInsert h v d = (h.put s k d ds, .success))
    (hbefore : hashIndexQuery (S := S) h v = readBucket h s)
    (hafter : hashIndexQuery (S := S) (h.put s k d ds) v = readBucket (h.put s k d ds) s) :
    Added S h v d := by
  obtain ⟨r, hr, hholds⟩ := hs.readBucket (S := S)
  obtain ⟨r', hr', hholds'⟩ := (hs.put hk hd hlt).readBucket (S := S)
  unfold Added
  rw [hins]
  exact ⟨rfl, ds, r, r', hbefore.trans hr, hholds, hafter.trans hr', hholds'⟩

variable (hsound : Sound h)

include hsound

theorem Sound.added_or_rejected (hd : d.toNat < h.limit ∧ d.toNat < cellBound)
    (hclean : CleanInsert h v d) : Added S h v d ∨ Rejected h v d := by
  have hd' : d.toNat < h.doclist.rowLimit ∧ d.toNat < cellBound := by
    rw [hsound.limit_eq]
    exact hd
  by_cases hlen : v.len = 0
  · obtain ⟨ds, k, hk, hs, hlt, hins⟩ := hsound.null_put hlen hd hclean
    exact .inl (added_of_put hk hs hd' hlt hins (hashIndexQuery_null hlen)
      (hashIndexQuery_null hlen))
  · rcases hsound.hash_cases hlen hd hclean with hrej | ⟨s, ds, hfind, hk, hs, hholds, hlt, hins⟩
    · exact .inr hrej
    · exact .inl (added_of_put hk hholds hd' hlt hins (hashIndexQuery_found hlen hfind)
        (hashIndexQuery_found hlen (find_put hfind)))

theorem Sound.getRowidList_zero :
    ∃ r : RowidList S, getRowidList h.doclist 0 = some r ∧ Holds r [h.doclist.word 0] := by
  have hnext : h.doclist.next 0 = 0 := by
    show h.doclist.docId (cellAddr 0) = 0
    by_cases hused : h.doclist.Used 0
    · exact hsound.docId 0 hused
    · exact hsound.unused 0 hused
  have hlink : h.doclist.link 0 = none := by
    unfold Doclist.link
    rw [hnext]
    rfl
  have hwalk : follow h.doclist.link (h.doclist.rowLimit + 1) 0 = some [0] :=
    follow_linked hlink (by simp)
  unfold DocDb.getRowidList
  rw [hwalk]
  exact ⟨_, rfl, (holds_init.addAll wellShaped_init [h.doclist.docId 0]).1⟩

/-- An unclean insert of NULL is lost. -/
theorem Sound.not_added_null (hlen : v.len = 0) (hunclean : ¬ CleanInsert h v d) :
    ¬ Added S h v d ∧ ¬ Rejected h v d := by
  unfold CleanInsert at hunclean
  rw [if_pos hlen, not_or] at hunclean
  obtain ⟨ds, hs⟩ := hsound.bucketHolds (le_refl h.hashmod)
  obtain ⟨hne, -⟩ := hs.head hunclean.1
  obtain ⟨e, es, rfl⟩ := exists_cons_of_ne_nil hne
  obtain ⟨hk, hoff, hcell, hdoc⟩ := hs.newest
  rw [hoff, frontOffset_cons, getOffset_toNat hcell, hdoc] at hunclean
  have hins := nullInsert_refused hs (UInt32.not_lt.mp hunclean.2) nullHash
  unfold Added Rejected
  rw [hashIndexInsert_null hlen, hins, hashIndexQuery_null hlen, hashIndexQuery_null hlen]
  refine ⟨?_, fun hc => absurd rfl hc.1⟩
  rintro ⟨-, ds, r, r', hr, hholds, hr', hholds'⟩
  -- before, the answer was not empty
  obtain ⟨r₀, hr₀, hholds₀⟩ := hs.readBucket (S := S)
  have hsame : r = r₀ := Option.some.inj (hr.symm.trans hr₀)
  have hds : ds = e :: es := hholds.unique (hsame ▸ hholds₀)
  -- now it is the header word
  obtain ⟨q, hq, hone⟩ := hsound.getRowidList_zero (S := S)
  have hread : readBucket (S := S) (h.set h.hashmod ⟨h.key h.hashmod, 0⟩ h.doclist) h.hashmod
      = some (some q) := by
    unfold DocDb.readBucket HashIndex.key HashIndex.set
    simp only [update_self]
    rw [if_neg (show (h.bucket h.hashmod).hashValue ≠ 0 from hk)]
    exact congrArg (Option.map some) hq
  have hq' : r' = some q := Option.some.inj (hr'.symm.trans hread)
  rw [hq', hds] at hholds'
  have hlist : [h.doclist.word 0] = d :: e :: es := hone.unique hholds'
  simp at hlist

/-- An unclean insert of a value is lost. -/
theorem Sound.not_added_zero (hlen : v.len ≠ 0) (hd : d.toNat < cellBound)
    (hunclean : ¬ CleanInsert h v d) : ¬ Added S h v d ∧ ¬ Rejected h v d := by
  unfold CleanInsert at hunclean
  rw [if_neg hlen, not_or, not_not] at hunclean
  obtain ⟨hzero, hroom⟩ := hunclean
  have hfound : h.find (getHashValue v) ≠ none := by
    intro hnone
    have hfull := (findSlot_eq_none_iff (homeOf_lt h)).mp hnone
    exact hroom fun s hs => (hfull s hs).1
  obtain ⟨s, hfind⟩ := Option.ne_none_iff_exists'.mp hfound
  obtain ⟨hs, hkey⟩ := findSlot_some (homeOf_lt h) hfind
  have hfree : h.key s = 0 := by
    rw [hzero] at hkey
    exact hkey.elim id id
  obtain ⟨ds, hholds⟩ := hsound.bucketHolds (Nat.le_of_lt hs)
  have hnil : ds = [] := hholds.empty hfree
  subst hnil
  have hins := bucketInsert_eq_put hholds hkey hd (fun _ he => nomatch he)
  unfold Added Rejected
  rw [hashIndexInsert_found hlen hfind, hins]
  refine ⟨?_, fun hc => absurd rfl hc.1⟩
  rintro ⟨-, ds, -, r', -, -, hr', hholds'⟩
  simp only at hr'
  rw [hashIndexQuery_found hlen (find_put hfind)] at hr'
  have hread : readBucket (S := S) (h.put s (getHashValue v) d []) s = some none := by
    unfold DocDb.readBucket
    rw [put_key, update_self, if_pos hzero]
  have hnone : r' = none := Option.some.inj (hr'.symm.trans hread)
  rw [hnone] at hholds'
  exact cons_ne_nil _ _ hholds'

theorem insert_outcome_iff (hd : d.toNat < h.limit ∧ d.toNat < cellBound) (v : LowData) :
    (¬ Added S h v d → Rejected h v d) ↔ CleanInsert h v d := by
  constructor
  · intro hclaim
    by_contra hunclean
    have hnot : ¬ Added S h v d ∧ ¬ Rejected h v d := by
      by_cases hlen : v.len = 0
      · exact hsound.not_added_null hlen hunclean
      · exact hsound.not_added_zero hlen hd.2 hunclean
    exact hnot.2 (hclaim hnot.1)
  · intro hclean hadd
    exact (hsound.added_or_rejected hd hclean).resolve_left hadd

theorem Sound.insert (hd : d.toNat < h.limit ∧ d.toNat < cellBound) (hclean : CleanInsert h v d) :
    Sound (hashIndexInsert h v d).1 ∧ (hashIndexInsert h v d).1.limit = h.limit := by
  by_cases hlen : v.len = 0
  · obtain ⟨ds, k, -, hs, hlt, hins⟩ := hsound.null_put hlen hd hclean
    rw [hins]
    exact ⟨hsound.put hs hd hlt, rfl⟩
  · rcases hsound.hash_cases hlen hd hclean with hrej | ⟨s, ds, -, -, -, hholds, hlt, hins⟩
    · rw [hrej.2]
      exact ⟨hsound, rfl⟩
    · rw [hins]
      exact ⟨hsound.put hholds hd hlt, rfl⟩

end Outcome

/-! ## §4. Reachable states. -/

/-- The calls that change an index. -/
inductive IndexOp where
  | insert (data : LowData) (docid : UInt32)
  | recover (docid : UInt32)

/-- A call: none for a value whose text does not fit `to_hash`. -/
def indexStep (h : HashIndex) : IndexOp → Option HashIndex
  | .insert data docid => hashing data (hashIndexInsert h data docid).1
  | .recover docid => hashIndexRecover h docid

def CleanStep (h : HashIndex) : IndexOp → Prop
  | .insert data docid =>
    (docid.toNat < h.limit ∧ docid.toNat < cellBound) ∧ HashFits data ∧ CleanInsert h data docid
  | .recover docid => docid.toNat < h.limit ∧ docid.toNat < cellBound

instance (h : HashIndex) : ∀ op, Decidable (CleanStep h op)
  | .insert _ _ => inferInstanceAs (Decidable (_ ∧ _))
  | .recover _ => inferInstanceAs (Decidable (_ ∧ _))

theorem Sound.step {h : HashIndex} (hsound : Sound h) {op : IndexOp} (hclean : CleanStep h op) :
    ∃ h', indexStep h op = some h' ∧ Sound h' ∧ h'.limit = h.limit := by
  cases op with
  | insert v d =>
    obtain ⟨hd, hfit, hclean⟩ := hclean
    exact ⟨_, hashing_eq_some.mpr ⟨hfit, rfl⟩, hsound.insert hd hclean⟩
  | recover d => exact hsound.recover hclean.2

/-- **REJECTED INSERTS CHANGE NOTHING**: in every state reached by inserts, in
any order of docids, and recoveries, an insert comes back, and returns an error
with the index as it was if it does not add its docid, exactly if its value fits
`to_hash` and it is clean. -/
theorem rejected_insert_changes_nothing {S : Type} (hashmod limit : Nat) (hpos : 0 < hashmod)
    (hlt : 12 * (hashmod + 1) < 2 ^ 32) (ops : List IndexOp)
    (hclean : Along indexStep CleanStep (HashIndex.new hashmod limit hpos hlt) ops) :
    ∃ h, run indexStep (HashIndex.new hashmod limit hpos hlt) ops = some h ∧
      ∀ (v : LowData) (d : UInt32), d.toNat < limit ∧ d.toNat < cellBound →
        ((∃ res, hashing v (hashIndexInsert h v d) = some res) ∧
            (¬ Added S h v d → Rejected h v d) ↔
          HashFits v ∧ CleanInsert h v d) := by
  have hstep : ∀ (_ : List IndexOp) h op, Sound h ∧ h.limit = limit → CleanStep h op →
      ∃ h', indexStep h op = some h' ∧ Sound h' ∧ h'.limit = limit := by
    rintro _ h op ⟨hsound, hlim⟩ hop
    obtain ⟨h', hstep, hsound', hlim'⟩ := hsound.step hop
    exact ⟨h', hstep, hsound', hlim'.trans hlim⟩
  obtain ⟨h, hrun, hsound, hlim⟩ := Along.run_inv (fun _ h => Sound h ∧ h.limit = limit) hstep ops
    [] _ ⟨sound_new hashmod limit hpos hlt, rfl⟩ hclean
  refine ⟨h, hrun, fun v d hd => and_congr ?_ (insert_outcome_iff hsound ?_ v)⟩
  · simp only [hashing_eq_some, exists_and_left, exists_eq', and_true]
  · rw [hlim]
    exact hd

theorem rejected_insert_changes_nothing_repeated :
    ∃ h, run indexStep (hashIndexInit 2 (by decide) (by decide))
        [.insert (tinyValue 5) 1] = some h ∧
      (¬ Added Unit h (tinyValue 5) 0 → Rejected h (tinyValue 5) 0) := by
  obtain ⟨h, hrun, hall⟩ := rejected_insert_changes_nothing (S := Unit) 2 2 (by decide) (by decide)
    [.insert (tinyValue 5) 1] (by decide)
  refine ⟨h, hrun, ((hall (tinyValue 5) 0 (by decide)).mpr ⟨by decide, ?_⟩).2⟩
  unfold CleanInsert
  rw [if_neg (by decide)]
  exact .inl (by decide)

/-- A second insert without bytes, of a smaller docid, reports success; the
answer `[1]` is gone and a word of the file header comes in its place. -/
theorem null_insert_loses_answer :
    ∃ h h', run indexStep (hashIndexInit 2 (by decide) (by decide))
        [.insert nullValue 1] = some h ∧
      hashIndexInsert h nullValue 0 = (h', .success) ∧
      (∃ r : RowidList Unit, hashIndexQuery h nullValue = some (some r) ∧ Holds r [1]) ∧
      ∃ r : RowidList Unit, hashIndexQuery h' nullValue = some (some r) ∧
        Holds r [dataStorageVersion] := by
  refine ⟨_, _, rfl, rfl, ⟨_, rfl, rfl, ?_⟩, _, rfl, rfl, ?_⟩
  · intro i hi
    obtain rfl : i = 0 := by simpa using hi
    rfl
  · intro i hi
    obtain rfl : i = 0 := by simpa using hi
    rfl

end Mile.DocDb
