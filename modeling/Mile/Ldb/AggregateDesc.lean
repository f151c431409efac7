/-
  Mile.Ldb.AggregateDesc
  ──────────────────────
  **ARRAYS OF AGGREGATES** (`storage/ldb/AggregateDesc.cpp`).

  A bucket holds one aggregate for each function and column, in this order.  `Merge` walks two
  such arrays side by side.
-/
import Mile.Common.AggrFunc
import Mile.Ldb.Comparator
import Mile.Lib.Cursor

namespace Mile.Ldb

open Lib Common List

/-! ## §1. One aggregate. -/

/-- `struct aggregate_desc_t`. -/
structure AggregateDesc where
  funcType : FunctionType
  name : Bytes
  value : LowData
  deriving DecidableEq

/-- `strcmp`, by its sign. -/
def strcmp : Bytes → Bytes → Int
  | [], [] => 0
  | [], _ :: _ => -1
  | _ :: _, [] => 1
  | p :: ps, q :: qs => if p = q then strcmp ps qs else if p < q then -1 else 1

namespace AggregateDesc

/-- `aggregate_desc_t::Compare`. -/
protected def compare (a b : AggregateDesc) : Int :=
  let rc := comp a.funcType.toByte.toNat b.funcType.toByte.toNat
  if rc ≠ 0 then rc else strcmp a.name b.name

/-- What `Compare` looks at. -/
def key (d : AggregateDesc) : FunctionType × Bytes := (d.funcType, d.name)

def rank (d : AggregateDesc) : Lex (Nat × List Int) :=
  toLex (d.funcType.toByte.toNat, rowRank d.name)

theorem strcmp_eq (p q : Bytes) : strcmp p q = comp (rowRank p) (rowRank q) := by
  rw [comp_rowRank]
  induction p generalizing q with
  | nil => cases q <;> simp [strcmp, memcmp]
  | cons a p ih =>
    cases q with
    | nil => simp [strcmp, memcmp]
    | cons b q =>
      simp only [strcmp, memcmp, length_cons, Nat.add_lt_add_iff_right, gt_iff_lt]
      by_cases hab : a = b
      · simpa [hab] using ih q
      · by_cases hlt : a < b <;> simp [hab, hlt]

theorem compare_eq (a b : AggregateDesc) : a.compare b = comp a.rank b.rank := by
  unfold AggregateDesc.compare rank
  rw [comp_toLex, strcmp_eq]

theorem rank_eq_iff {a b : AggregateDesc} : a.rank = b.rank ↔ a.key = b.key := by
  unfold rank key
  rw [toLex_inj, Prod.mk.injEq, Prod.mk.injEq, rowRank_injective.eq_iff]
  refine and_congr_left fun _ => ⟨fun h => ?_, fun h => by rw [h]⟩
  have hbyte := UInt8.toNat_inj.mp h
  exact Option.some.inj ((FunctionType.ofByte?_toByte _).symm.trans
    ((congrArg FunctionType.ofByte? hbyte).trans (FunctionType.ofByte?_toByte _)))

def Sorted (ds : List AggregateDesc) : Prop := ds.Pairwise fun a b => a.rank ≤ b.rank

/-! ## §2. Merging. -/

variable (funcs : AggrFunc.OtherFuncs)

/-- The loop of `Merge`: `p` is the place in the other array. -/
def mergeLoop : List AggregateDesc → List AggregateDesc → Option (List AggregateDesc)
  | [], _ => some []
  | d :: ds, p =>
    match p.dropWhile fun e => e.compare d < 0 with
    | [] => some (d :: ds)
    | e :: es =>
      if e.compare d = 0 then do
        let value ← AggrFunc.mergeFunc funcs d.funcType d.value e.value
        let rest ← mergeLoop ds (e :: es)
        return { d with value := value } :: rest
      else do
        let rest ← mergeLoop ds (e :: es)
        return d :: rest

/-- `aggregate_desc_array_t::Merge`, from the lower bound of the first aggregate
on. -/
def merge (data other : List AggregateDesc) : Option (List AggregateDesc) :=
  match data with
  | [] => some []
  | d :: ds => mergeLoop funcs (d :: ds) (other.dropWhile fun e => e.compare d < 0)

/-- An aggregate has taken in its like of another array, if there is one. -/
def Merged (other : List AggregateDesc) (d d' : AggregateDesc) : Prop :=
  d'.key = d.key ∧
    ((∃ e ∈ other, e.key = d.key ∧
        AggrFunc.mergeFunc funcs d.funcType d.value e.value = some d'.value) ∨
      (∀ e ∈ other, e.key ≠ d.key) ∧ d' = d)

/-- The functions `MergeFunc` supports. -/
abbrev Mergeable (d : AggregateDesc) : Prop := d.funcType ∈ [.min, .max, .count, .sum]

variable {funcs}

theorem compare_neg_iff {a b : AggregateDesc} : a.compare b < 0 ↔ a.rank < b.rank := by
  rw [compare_eq]
  rcases lt_trichotomy a.rank b.rank with h | h | h
  · simp [comp_eq_neg_one.mpr h, h]
  · simp [h, comp_self]
  · simp [comp_eq_one.mpr h, not_lt_of_gt h]

theorem compare_eq_zero_iff {a b : AggregateDesc} : a.compare b = 0 ↔ a.key = b.key := by
  rw [compare_eq, comp_eq_zero, rank_eq_iff]

variable {p : List AggregateDesc} {d : AggregateDesc} {data : List AggregateDesc}

theorem mem_dropWhile_of_le {e : AggregateDesc} (he : e ∈ p)
    (hle : d.rank ≤ e.rank) : e ∈ p.dropWhile fun e => e.compare d < 0 := by
  rw [← takeWhile_append_dropWhile (p := fun e => decide (e.compare d < 0)) (l := p)] at he
  rcases mem_append.mp he with he | he
  · have hlt := mem_takeWhile_imp he
    exact absurd (compare_neg_iff.mp (of_decide_eq_true hlt)) (not_lt.mpr hle)
  · exact he

theorem Merged.of_dropWhile {d₀ d' : AggregateDesc} (hle : d₀.rank ≤ d.rank)
    (h : Merged funcs (p.dropWhile fun e => e.compare d₀ < 0) d d') : Merged funcs p d d' := by
  obtain ⟨hkey, ⟨e, he, hmerge⟩ | ⟨hnone, rfl⟩⟩ := h
  · exact ⟨hkey, .inl ⟨e, (dropWhile_sublist _).mem he, hmerge⟩⟩
  · refine ⟨hkey, .inr ⟨fun e he heq => ?_, rfl⟩⟩
    exact hnone e (mem_dropWhile_of_le he (hle.trans (rank_eq_iff.mpr heq).ge)) heq

/-- Each entry is merged with the one of its key. -/
theorem mergeLoop_merged {data' : List AggregateDesc} (hdata : Sorted data)
    (hp : Sorted p) (h : mergeLoop funcs data p = some data') :
    Forall₂ (Merged funcs p) data data' := by
  induction data generalizing p data' with
  | nil =>
    cases h
    exact Forall₂.nil
  | cons d ds ih =>
    obtain ⟨hhead, htail⟩ := pairwise_cons.mp hdata
    unfold mergeLoop at h
    cases hdrop : p.dropWhile fun e => decide (e.compare d < 0) with
    | nil =>
      -- the other array is at its end
      rw [hdrop] at h
      cases h
      refine forall₂_same.mpr fun x hx => ?_
      have hle : d.rank ≤ x.rank := by
        rcases mem_cons.mp hx with rfl | hx
        · exact le_rfl
        · exact hhead x hx
      refine Merged.of_dropWhile hle ?_
      rw [hdrop]
      exact ⟨rfl, .inr ⟨forall_mem_nil _, rfl⟩⟩
    | cons e es =>
      rw [hdrop] at h
      have hsorted : Sorted (e :: es) := hdrop ▸ hp.sublist (dropWhile_sublist _)
      -- what the rest gets from here it gets from the whole array
      have hrest : ∀ {rest}, mergeLoop funcs ds (e :: es) = some rest →
          Forall₂ (Merged funcs p) ds rest := fun hloop => by
        refine ((forall₂_and_left _ _).mpr ⟨hhead, ih htail hsorted hloop⟩).imp ?_
        rintro x x' ⟨hle, hmerged⟩
        exact Merged.of_dropWhile hle (hdrop ▸ hmerged)
      have hmem : e ∈ p := (dropWhile_sublist _).mem (hdrop ▸ mem_cons_self)
      by_cases heq : e.compare d = 0
      · simp only [heq, if_true] at h
        obtain ⟨value, hvalue, h⟩ := Option.bind_eq_some_iff.mp h
        obtain ⟨rest, hloop, h⟩ := Option.bind_eq_some_iff.mp h
        cases h
        have hkey := compare_eq_zero_iff.mp heq
        exact Forall₂.cons ⟨rfl, .inl ⟨e, hmem, hkey, hvalue⟩⟩ (hrest hloop)
      · simp only [heq, if_false] at h
        obtain ⟨rest, hloop, h⟩ := Option.bind_eq_some_iff.mp h
        cases h
        refine Forall₂.cons ⟨rfl, .inr ⟨fun x hx hkey => ?_, rfl⟩⟩ (hrest hloop)
        -- the first one not below is above, and so are all behind it
        have hx' := mem_dropWhile_of_le hx (rank_eq_iff.mpr hkey).ge
        have hle : e.rank ≤ d.rank := by
          rw [hdrop] at hx'
          rw [← rank_eq_iff.mpr hkey]
          rcases mem_cons.mp hx' with rfl | hx'
          · exact le_rfl
          · exact (pairwise_cons.mp hsorted).1 x hx'
        have hge : ¬e.compare d < 0 := by
          have := head_dropWhile_not (fun e => decide (e.compare d < 0)) (l := p)
            (by simp [hdrop])
          simpa [hdrop] using this
        rw [compare_neg_iff, not_lt] at hge
        exact heq (compare_eq_zero_iff.mpr (rank_eq_iff.mp (le_antisymm hle hge)))

theorem mergeLoop_some (h : ∀ d ∈ data, d.Mergeable) :
    ∃ data', mergeLoop funcs data p = some data' := by
  induction data generalizing p with
  | nil => exact ⟨_, rfl⟩
  | cons d ds ih =>
    obtain ⟨hhead, htail⟩ := forall_mem_cons.mp h
    unfold mergeLoop
    cases p.dropWhile fun e => decide (e.compare d < 0) with
    | nil => exact ⟨_, rfl⟩
    | cons e es =>
      obtain ⟨rest, hrest⟩ := @ih (e :: es) htail
      have hvalue : ∃ value, AggrFunc.mergeFunc funcs d.funcType d.value e.value = some value := by
        unfold Mergeable at hhead
        cases hf : d.funcType <;> simp [hf] at hhead <;> exact ⟨_, rfl⟩
      obtain ⟨value, hvalue⟩ := hvalue
      by_cases heq : e.compare d = 0
      · simp only [heq, if_true, hvalue, hrest]
        exact ⟨_, rfl⟩
      · simp only [heq, if_false, hrest]
        exact ⟨_, rfl⟩

theorem merge_merged {other data' : List AggregateDesc} (hdata : Sorted data)
    (hother : Sorted other) (h : merge funcs data other = some data') :
    Forall₂ (Merged funcs other) data data' := by
  cases data with
  | nil =>
    cases h
    exact Forall₂.nil
  | cons d ds =>
    have hle : ∀ x ∈ d :: ds, d.rank ≤ x.rank := by
      intro x hx
      rcases mem_cons.mp hx with rfl | hx
      · exact le_rfl
      · exact (pairwise_cons.mp hdata).1 x hx
    have hloop := mergeLoop_merged hdata (hother.sublist (dropWhile_sublist _)) h
    refine ((forall₂_and_left _ _).mpr ⟨hle, hloop⟩).imp ?_
    rintro x x' ⟨hle, hmerged⟩
    exact Merged.of_dropWhile hle hmerged

theorem merge_some {other : List AggregateDesc} (h : ∀ d ∈ data, d.Mergeable) :
    ∃ data', merge funcs data other = some data' := by
  cases data with
  | nil => exact ⟨_, rfl⟩
  | cons d ds => exact mergeLoop_some h

/-! ## §3. The form in the store. -/

def image (d : AggregateDesc) : Bytes :=
  d.funcType.toByte :: UInt8.ofNat d.name.length :: d.name ++
    (d.value.type.toByte :: (leBytes 4 d.value.len ++ d.value.data))

/-- `aggregate_desc_array_t::ToLowData`. -/
def toLowData (ds : List AggregateDesc) : Bytes :=
  leBytes 4 ds.length ++ (ds.map image).flatten

def readFuncType : Cursor FunctionType := do StateT.lift (FunctionType.ofByte? (← getByte))

def readText : Cursor Bytes := do getBytes (← getByte).toNat

def readValueType : Cursor FieldType := do StateT.lift (FieldType.ofByte? (← getByte))

/-- One round of `FromLowData`. -/
def readDesc : Cursor AggregateDesc := do
  let funcType ← readFuncType
  let name ← readText
  let type ← readValueType
  let data ← getBytes (← getWord 4)
  return ⟨funcType, name, ⟨[], type, data⟩⟩

/-- `aggregate_desc_array_t::FromLowData`; `none` when it fails, or reads behind
the value. -/
def fromLowData (low : Bytes) : Option (List AggregateDesc) := do
  let (ds, rest) ← (do getTimes readDesc (← getWord 4) : Cursor (List AggregateDesc)).run low
  if rest = [] then some ds else none

def unnamed (d : AggregateDesc) : AggregateDesc :=
  { d with value := { d.value with fieldName := [] } }

def Fits (d : AggregateDesc) : Prop := d.name.length < 256 ∧ d.value.len < 2 ^ 32

theorem reads_readText {name : Bytes} (h : name.length < 256) :
    Reads readText (UInt8.ofNat name.length :: name) name := by
  have hlen : name.length = (UInt8.ofNat name.length).toNat := by
    rw [UInt8.toNat_ofNat', Nat.mod_eq_of_lt h]
  exact (reads_getByte _).bind (reads_getBytes hlen)

theorem reads_readDesc (h : d.Fits) : Reads readDesc (image d) d.unnamed := by
  have hfunc : Reads readFuncType [d.funcType.toByte] d.funcType :=
    (reads_getByte _).bind (reads_lift (FunctionType.ofByte?_toByte _))
  have htype : Reads readValueType [d.value.type.toByte] d.value.type :=
    (reads_getByte _).bind (reads_lift (FieldType.ofByte?_toByte _))
  have hdata := (reads_getBytes (rfl : d.value.data.length = d.value.len)).bind
    (f := fun data => pure (⟨d.funcType, d.name, ⟨[], d.value.type, data⟩⟩ : AggregateDesc))
    (reads_pure _)
  rw [append_nil] at hdata
  have hword : d.value.len < 256 ^ 4 := by
    have := h.2
    norm_num at this ⊢
    exact this
  exact hfunc.bind ((reads_readText h.1).bind (htype.bind ((reads_getWord hword).bind hdata)))

/-- An array is read back from its bytes. -/
theorem fromLowData_toLowData {ds : List AggregateDesc} (hfits : ∀ d ∈ ds, d.Fits)
    (hlen : ds.length < 2 ^ 32) : fromLowData (toLowData ds) = some (ds.map unnamed) := by
  have hword : ds.length < 256 ^ 4 := by
    norm_num at hlen ⊢
    exact hlen
  have htimes : Reads (getTimes readDesc ds.length) (ds.map image).flatten (ds.map unnamed) := by
    have hread := @reads_getTimes _ readDesc image (ds.map unnamed) fun d hd => by
      obtain ⟨x, hx, rfl⟩ := mem_map.mp hd
      exact reads_readDesc (hfits x hx)
    rw [length_map, map_map] at hread
    exact hread
  have hall := ((reads_getWord hword).bind htimes) []
  rw [append_nil] at hall
  unfold fromLowData toLowData
  rw [hall]
  rfl

end AggregateDesc

end Mile.Ldb
