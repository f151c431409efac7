/-
  Mile.DocDb.Doclist
  ──────────────────
  **THE DOCLIST: CHAINS OF DOCIDS IN ONE MAPPED FILE** (`storage/docdb/doclist.c`).

  The file is a header word and cells of two words, `doc_id` and `next`: the byte offset of the
  next cell of the chain, or, in the last cell, the number of the chain's bucket with the top bit
  set.
-/
import Mile.Lib.Chain
import Mile.DocDb.RowidList

namespace Mile.DocDb

open Lib List Function

/-! ## §1. The file. -/

/-- `struct doclist_manager`: the words of the file, by byte offset. -/
structure Doclist where
  rowLimit : Nat
  version : UInt32
  word : Nat → UInt32

/-- `DATA_STOAGE_VERSION`. -/
def dataStorageVersion : UInt32 := 0x80000001

/-- `GET_DOC_ROW_STRUCT`: the address of a cell; also the offset that leads
to it, before it is cut to 32 bits. -/
def cellAddr (cell : Nat) : Nat := 4 + 8 * cell

/-- `GET_OFFSET`. -/
def getOffset (cell : Nat) : UInt32 := UInt32.ofNat (cellAddr cell)

def flagged (w : UInt32) : Bool := w &&& 0x80000000 ≠ 0

/-- The `next` word of the last cell of bucket `bucketNo`. -/
def endMark (bucketNo : Nat) : UInt32 := 0x80000000 ||| UInt32.ofNat bucketNo

/-- `doc_row->doc_id` of the cell at an address. -/
def Doclist.docId (l : Doclist) (addr : Nat) : UInt32 := l.word addr

/-- `doc_row->next` of the cell at an address. -/
def Doclist.next (l : Doclist) (addr : Nat) : UInt32 := l.word (addr + 4)

def Doclist.setCell (l : Doclist) (cell : Nat) (docId next : UInt32) : Doclist :=
  { l with word :=
      update (update l.word (cellAddr cell + 4) next) (cellAddr cell) docId }

/-- `doclist_init` on a new file. -/
def doclistInit (rowLimit : Nat) : Doclist :=
  { rowLimit := rowLimit
    version := dataStorageVersion
    word := update (fun _ => 0) 0 dataStorageVersion }

/-- `doclist_init_v2` on a new file. -/
def doclistInitV2 (rowLimit : Nat) : Doclist :=
  { rowLimit := rowLimit, version := 0, word := fun _ => 0 }

/-- What both insert functions do with a cell: it starts a chain, or goes in
front of the chain at `headOffset`, whose first docid must be smaller. -/
def Doclist.push (l : Doclist) (cell : Nat) (docId headOffset : UInt32) (bucketNo : Nat) :
    Option Doclist :=
  if headOffset = 0 then some (l.setCell cell docId (endMark bucketNo))
  else if docId ≤ l.docId headOffset.toNat then none
  else some (l.setCell cell docId headOffset)

/-- `doclist_insert`: the offset of the docid's cell, or 0. -/
def doclistInsert (l : Doclist) (docId headOffset : UInt32) (bucketNo : Nat) : Doclist × UInt32 :=
  match l.push docId.toNat docId headOffset bucketNo with
  | none => (l, 0)
  | some l' => (l', getOffset docId.toNat)

/-- `*cur_offset`. -/
def Doclist.curOffset (l : Doclist) : Nat := (l.word 0).toNat

/-- `*cur_offset` written. -/
def Doclist.setCurOffset (l : Doclist) (n : Nat) : Doclist :=
  { l with word := update l.word 0 (UInt32.ofNat n) }

/-- `doclist_insert_v2`: the offset of the next free cell, 0, or -1 when there
is none. -/
def doclistInsertV2 (l : Doclist) (docId headOffset : UInt32) (bucketNo : Nat) :
    Doclist × UInt32 :=
  if l.curOffset = l.rowLimit then (l, 0xFFFFFFFF)
  else
    match l.push l.curOffset docId headOffset bucketNo with
    | none => (l, 0)
    | some l' => (l'.setCurOffset (l.curOffset + 1), getOffset l.curOffset)

/-- The address `get_rowid_list` goes to from a cell. -/
def Doclist.link (l : Doclist) (addr : Nat) : Option Nat :=
  if flagged (l.next addr) || l.next addr = 0 then none else some (l.next addr).toNat

/-- `get_rowid_list` from the cell at an address.  Cells that lead round in a
circle would be followed for ever: no result. -/
def getRowidList {S : Type} (l : Doclist) (addr : Nat) : Option (RowidList S) :=
  (follow l.link (l.rowLimit + 1) addr).map fun addrs =>
    (addrs.map l.docId).foldl rowidListAdd rowidListInit

/-! ## §2. Words and offsets. -/

theorem flagged_iff (w : UInt32) : flagged w = true ↔ 2 ^ 31 ≤ w.toNat := by
  unfold flagged
  rw [decide_eq_true_iff, Ne, ← UInt32.toNat_inj, UInt32.toNat_and]
  show ¬ w.toNat &&& 2 ^ 31 = 0 ↔ _
  rw [Nat.and_two_pow, Nat.testBit_eq_decide_div_mod_eq]
  have hw := w.toNat_lt
  simp
  omega

theorem flagged_eq_false {w : UInt32} (h : w.toNat < 2 ^ 31) : flagged w = false := by
  rw [Bool.eq_false_iff, Ne, flagged_iff]
  omega

theorem flagged_endMark (b : Nat) : flagged (endMark b) = true := by
  rw [flagged_iff]
  unfold endMark
  rw [UInt32.toNat_or]
  exact Nat.left_le_or

theorem endMark_ne_zero (b : Nat) : endMark b ≠ 0 := by
  intro h0
  have hflag := flagged_endMark b
  rw [h0] at hflag
  exact absurd hflag (by decide)

theorem endMark_toNat {b : Nat} (h : b < 2 ^ 31) : (endMark b).toNat = 2 ^ 31 + b := by
  unfold endMark
  rw [UInt32.toNat_or, UInt32.toNat_ofNat', Nat.mod_eq_of_lt (by omega)]
  have := Nat.two_pow_add_eq_or_of_lt h 1
  rw [Nat.mul_one] at this
  exact this.symm

theorem endMark_bucket {b : Nat} (h : b < 2 ^ 31) : (endMark b &&& 0x7FFFFFFF).toNat = b := by
  rw [UInt32.toNat_and, endMark_toNat h]
  show (2 ^ 31 + b) &&& (2 ^ 31 - 1) = b
  rw [Nat.and_two_pow_sub_one_eq_mod]
  omega

def cellBound : Nat := 2 ^ 28

variable {c : Nat}

theorem getOffset_toNat (h : c < cellBound) : (getOffset c).toNat = cellAddr c := by
  unfold getOffset cellAddr
  unfold cellBound at h
  rw [UInt32.toNat_ofNat']
  omega

theorem getOffset_ne_max (h : c < cellBound) : getOffset c ≠ 0xFFFFFFFF := by
  intro hmax
  have hoff := getOffset_toNat h
  rw [hmax] at hoff
  unfold cellBound at h
  unfold cellAddr at hoff
  have hval : (0xFFFFFFFF : UInt32).toNat = 2 ^ 32 - 1 := rfl
  omega

theorem getOffset_ne_zero (h : c < cellBound) : getOffset c ≠ 0 := by
  intro h0
  have := getOffset_toNat h
  rw [h0] at this
  unfold cellAddr at this
  rw [UInt32.toNat_zero] at this
  omega

theorem flagged_getOffset (h : c < cellBound) : flagged (getOffset c) = false := by
  apply flagged_eq_false
  rw [getOffset_toNat h]
  unfold cellAddr
  unfold cellBound at h
  omega

/-! ## §3. Reading written cells. -/

section Cells

variable (l : Doclist)

@[simp] theorem docId_setCell_self (c : Nat) (d n : UInt32) :
    (l.setCell c d n).docId (cellAddr c) = d := update_self ..

@[simp] theorem next_setCell_self (c : Nat) (d n : UInt32) :
    (l.setCell c d n).next (cellAddr c) = n := by
  show update (update l.word (cellAddr c + 4) n) (cellAddr c) d _ = n
  rw [update_of_ne (by omega), update_self]

theorem word_setCell_of_ne {c addr : Nat} (d n : UInt32) (h : addr ≠ cellAddr c)
    (h' : addr ≠ cellAddr c + 4) : (l.setCell c d n).word addr = l.word addr := by
  show update (update l.word (cellAddr c + 4) n) (cellAddr c) d addr = _
  rw [update_of_ne h, update_of_ne h']

theorem curOffset_setCurOffset {n : Nat} (h : n < 2 ^ 32) : (l.setCurOffset n).curOffset = n := by
  show (update l.word 0 (UInt32.ofNat n) 0).toNat = n
  rw [update_self, UInt32.toNat_ofNat']
  exact Nat.mod_eq_of_lt h

theorem docId_setCell_of_ne {c e : Nat} (d n : UInt32) (h : e ≠ c) :
    (l.setCell c d n).docId (cellAddr e) = l.docId (cellAddr e) :=
  word_setCell_of_ne l d n (by unfold cellAddr; omega) (by unfold cellAddr; omega)

theorem next_setCell_of_ne {c e : Nat} (d n : UInt32) (h : e ≠ c) :
    (l.setCell c d n).next (cellAddr e) = l.next (cellAddr e) :=
  word_setCell_of_ne l d n (by unfold cellAddr; omega) (by unfold cellAddr; omega)

end Cells

/-! ## §4. Chains in the file. -/

/-- A cell and the docid it stands for. -/
structure Cell where
  pos : Nat
  doc : UInt32

def ownCell (d : UInt32) : Cell := ⟨d.toNat, d⟩

/-- The cells stand in the file as a chain of bucket `b`, newest first; cells
and docids go down along it. -/
def Chained (l : Doclist) (b : Nat) : List Cell → Prop
  | [] => True
  | [c] => l.docId (cellAddr c.pos) = c.doc ∧ l.next (cellAddr c.pos) = endMark b
  | c :: e :: cs =>
    l.docId (cellAddr c.pos) = c.doc ∧ l.next (cellAddr c.pos) = getOffset e.pos ∧
      e.pos < c.pos ∧ e.doc < c.doc ∧ Chained l b (e :: cs)

section Chains

variable {l l' : Doclist} {b : Nat}

theorem Chained.docId_eq : ∀ {cs : List Cell}, Chained l b cs →
    ∀ c ∈ cs, l.docId (cellAddr c.pos) = c.doc
  | [_], h, c, hc => by
    obtain rfl := mem_singleton.mp hc
    exact h.1
  | c :: e :: cs, h, x, hx => by
    rcases mem_cons.mp hx with rfl | hx
    · exact h.1
    · exact Chained.docId_eq h.2.2.2.2 x hx

variable {c : Cell} {cs : List Cell} {p : Nat} {d : UInt32}

theorem Chained.tail : ∀ {cs : List Cell}, Chained l b (c :: cs) → Chained l b cs
  | [], _ => trivial
  | _ :: _, h => h.2.2.2.2

theorem Chained.below : ∀ {cs : List Cell} {c : Cell}, Chained l b (c :: cs) →
    ∀ e ∈ cs, e.pos < c.pos ∧ e.doc < c.doc
  | [], _, _, _, he => nomatch he
  | f :: cs, c, h, e, he => by
    obtain ⟨-, -, hpos, hdoc, hrest⟩ := h
    rcases mem_cons.mp he with rfl | he
    · exact ⟨hpos, hdoc⟩
    · have := Chained.below hrest e he
      exact ⟨Nat.lt_trans this.1 hpos, UInt32.lt_trans this.2 hdoc⟩

theorem Chained.length_le : ∀ {cs : List Cell} {c : Cell}, Chained l b (c :: cs) →
    cs.length ≤ c.pos
  | [], _, _ => Nat.zero_le _
  | f :: cs, c, h => by
    have := Chained.length_le h.2.2.2.2
    have hpos := h.2.2.1
    simp only [length_cons]
    omega

theorem Chained.docs_desc : ∀ {cs : List Cell}, Chained l b cs → (cs.map Cell.doc).Pairwise (· > ·)
  | [], _ => Pairwise.nil
  | c :: cs, h => by
    rw [map_cons, pairwise_cons]
    refine ⟨fun d hd => ?_, Chained.docs_desc h.tail⟩
    obtain ⟨e, he, rfl⟩ := mem_map.mp hd
    exact (h.below e he).2

theorem Chained.congr : ∀ {cs : List Cell}, Chained l b cs →
    (∀ c ∈ cs, l'.docId (cellAddr c.pos) = l.docId (cellAddr c.pos) ∧
      l'.next (cellAddr c.pos) = l.next (cellAddr c.pos)) → Chained l' b cs
  | [], _, _ => trivial
  | [_], h, hagree => by
    have := hagree _ mem_cons_self
    exact ⟨this.1.trans h.1, this.2.trans h.2⟩
  | _ :: _ :: _, h, hagree => by
    have := hagree _ mem_cons_self
    exact ⟨this.1.trans h.1, this.2.trans h.2.1, h.2.2.1, h.2.2.2.1,
      Chained.congr h.2.2.2.2 fun c hc => hagree c (mem_cons_of_mem _ hc)⟩

theorem Chained.setCell_of_ne (h : Chained l b cs)
    (hne : ∀ c ∈ cs, c.pos ≠ p) (d n : UInt32) : Chained (l.setCell p d n) b cs :=
  h.congr fun c hc => ⟨docId_setCell_of_ne l d n (hne c hc), next_setCell_of_ne l d n (hne c hc)⟩

theorem Chained.setCurOffset (h : Chained l b cs) (n : Nat) : Chained (l.setCurOffset n) b cs := by
  have hword : ∀ a, a ≠ 0 → (l.setCurOffset n).word a = l.word a := fun a ha => by
    show update l.word 0 (UInt32.ofNat n) a = l.word a
    rw [update_of_ne ha]
  exact h.congr fun c _ => ⟨hword _ (by unfold cellAddr; omega), hword _ (by omega)⟩

theorem chained_setCell_single (l : Doclist) (b p : Nat) (d : UInt32) :
    Chained (l.setCell p d (endMark b)) b [⟨p, d⟩] := by
  exact ⟨docId_setCell_self l p d _, next_setCell_self l p d _⟩

theorem Chained.setCell_cons {e : Cell} (h : Chained l b (e :: cs)) (hpos : e.pos < p)
    (hdoc : e.doc < d) :
    Chained (l.setCell p d (getOffset e.pos)) b (⟨p, d⟩ :: e :: cs) := by
  have hne : ∀ c ∈ e :: cs, c.pos ≠ p := by
    intro c hc
    rcases mem_cons.mp hc with rfl | hc
    · omega
    · have := (h.below c hc).1
      omega
  exact ⟨docId_setCell_self l p d _, next_setCell_self l p d _, hpos, hdoc, h.setCell_of_ne hne d _⟩

def headOffset : List Cell → UInt32
  | [] => 0
  | c :: _ => getOffset c.pos

def headNext (b : Nat) : List Cell → UInt32
  | [] => endMark b
  | c :: _ => getOffset c.pos

theorem Chained.front (h : Chained l b cs) (hlt : ∀ c ∈ cs, c.pos < p ∧ c.doc < d) :
    Chained (l.setCell p d (headNext b cs)) b (⟨p, d⟩ :: cs) := by
  cases cs with
  | nil => exact chained_setCell_single l b p d
  | cons c cs =>
    have hc := hlt c mem_cons_self
    exact h.setCell_cons hc.1 hc.2

theorem Chained.push_front (h : Chained l b cs)
    (hb : ∀ c ∈ cs, c.pos < cellBound) (hlt : ∀ c ∈ cs, c.doc < d) (p s : Nat) :
    l.push p d (headOffset cs) s = some (l.setCell p d (headNext s cs)) := by
  cases cs with
  | nil => rfl
  | cons c cs =>
    have hcell : c.pos < cellBound := hb c mem_cons_self
    unfold Doclist.push headOffset
    rw [if_neg (getOffset_ne_zero hcell), getOffset_toNat hcell, h.docId_eq c mem_cons_self,
      if_neg (UInt32.not_le.mpr (hlt c mem_cons_self))]
    rfl

theorem Chained.push_refused (h : Chained l b (c :: cs))
    (hcell : c.pos < cellBound) (hle : d ≤ c.doc) (p s : Nat) :
    l.push p d (headOffset (c :: cs)) s = none := by
  unfold Doclist.push headOffset
  rw [if_neg (getOffset_ne_zero hcell), getOffset_toNat hcell, h.docId_eq c mem_cons_self,
    if_pos hle]

theorem doclistInsertV2_full (h : l.curOffset = l.rowLimit) (d off : UInt32) (s : Nat) :
    doclistInsertV2 l d off s = (l, 0xFFFFFFFF) := by
  unfold doclistInsertV2
  rw [if_pos h]

/-- **`doclist_insert_v2`** of a docid larger than those of the chain takes the
next cell. -/
theorem Chained.insertV2_front (h : Chained l b cs)
    (hcur : l.curOffset < l.rowLimit) (hb : ∀ c ∈ cs, c.pos < cellBound)
    (hlt : ∀ c ∈ cs, c.doc < d) (s : Nat) :
    doclistInsertV2 l d (headOffset cs) s =
      ((l.setCell l.curOffset d (headNext s cs)).setCurOffset (l.curOffset + 1),
        getOffset l.curOffset) := by
  unfold doclistInsertV2
  rw [if_neg (by omega), h.push_front hb hlt]

theorem Chained.insertV2_refused (h : Chained l b (c :: cs))
    (hcur : l.curOffset < l.rowLimit) (hcell : c.pos < cellBound) (hle : d ≤ c.doc)
    (s : Nat) : doclistInsertV2 l d (headOffset (c :: cs)) s = (l, 0) := by
  unfold doclistInsertV2
  rw [if_neg (by omega), h.push_refused hcell hle]

theorem Chained.linked : ∀ {cs : List Cell} {c : Cell}, Chained l b (c :: cs) →
    (∀ e ∈ cs, e.pos < cellBound) →
    Linked l.link (cellAddr c.pos :: cs.map fun e => cellAddr e.pos)
  | [], c, h, _ => by
    show l.link _ = none
    unfold Doclist.link
    rw [h.2, flagged_endMark]
    rfl
  | e :: cs, c, h, hb => by
    have he : e.pos < cellBound := hb e mem_cons_self
    refine ⟨?_, Chained.linked h.2.2.2.2 fun x hx => hb x (mem_cons_of_mem _ hx)⟩
    unfold Doclist.link
    rw [h.2.1, flagged_getOffset he]
    simp [getOffset_ne_zero he, getOffset_toNat he]

theorem Chained.getRowidList {S : Type} (h : Chained l b (c :: cs))
    (hb : ∀ e ∈ cs, e.pos < cellBound) (hlimit : c.pos < l.rowLimit) :
    ∃ r : RowidList S, getRowidList l (cellAddr c.pos) = some r ∧
      Holds r ((c :: cs).map Cell.doc) ∧ WellShaped r := by
  have hlen := h.length_le
  have hwalk : follow l.link (l.rowLimit + 1) (cellAddr c.pos)
      = some ((c :: cs).map fun e => cellAddr e.pos) :=
    follow_linked (h.linked hb) (by rw [length_map]; omega)
  have hdocs : ((c :: cs).map fun e => cellAddr e.pos).map l.docId = (c :: cs).map Cell.doc := by
    rw [map_map]
    exact map_congr_left fun e he => h.docId_eq e he
  unfold DocDb.getRowidList
  rw [hwalk, Option.map_some, hdocs]
  exact ⟨_, rfl, (holds_init (S := S)).addAll wellShaped_init _⟩

end Chains

end Mile.DocDb
