/-
  Mile.DocDb.RowidList
  ────────────────────
  **LISTS OF ROW IDS** (`storage/docdb/rowid_list.c`).

  Chains of nodes with `ROWID_ARRAY_SIZE` = 256 slots; a pointer into a chain is a position.
  `Holds l xs`: slot `i % 256` of node `i / 256` gives rowid `i` of `xs`.
-/
import Mathlib

namespace Mile.DocDb

open List

/-! ## §1. The functions. -/

/-- `struct rowid_list_node`; `next` is the place in the chain. -/
structure RowidNode (S : Type) where
  rowidArray : Fin 256 → UInt32
  scoreArray : Option (Fin 256 → S)

/-- `struct rowid_list`; `head` is the first node, `tail` a position, without
meaning in an empty chain. -/
structure RowidList (S : Type) where
  rowidNum : Nat
  nodes : List (RowidNode S)
  tail : Nat

/-- The slot of the `i`-th rowid in its node. -/
def slotOf (i : Nat) : Fin 256 := Fin.ofNat 256 i

section Functions

variable {S : Type}

/-- A node as `memset` leaves it. -/
def RowidNode.zero : RowidNode S := ⟨fun _ => 0, none⟩

def RowidNode.set (nd : RowidNode S) (i : Nat) (rowid : UInt32) : RowidNode S :=
  { nd with rowidArray := Function.update nd.rowidArray (slotOf i) rowid }

/-- `rowid_list_init`. -/
def rowidListInit : RowidList S := ⟨0, [], 0⟩

def RowidList.link (l : RowidList S) (nd : RowidNode S) : RowidList S :=
  if l.nodes.isEmpty then { l with nodes := [nd], tail := 0 }
  else { l with nodes := l.nodes.take (l.tail + 1) ++ [nd], tail := l.tail + 1 }

/-- `rowid_list_add`. -/
def rowidListAdd (l : RowidList S) (rowid : UInt32) : RowidList S :=
  if l.nodes.isEmpty || l.rowidNum % 256 = 0 then
    { l.link (RowidNode.zero.set 0 rowid) with rowidNum := l.rowidNum + 1 }
  else
    { l with
      nodes := l.nodes.modify l.tail (·.set l.rowidNum rowid)
      rowidNum := l.rowidNum + 1 }

def RowidNode.ofList (rowids : List UInt32) : RowidNode S :=
  ⟨fun i => rowids.getD i.val 0, none⟩

/-- The loop of `rowid_list_batch_add`: a new node for every 256 rowids and
one for the rest. -/
def batchAddLoop : Nat → RowidList S → List UInt32 → RowidList S
  | 0, l, _ => l
  | fuel + 1, l, rowids =>
    let num := rowids.length
    if num = 0 then l
    else
      let insertNum := if num / 256 > 0 then 256 else num
      batchAddLoop fuel
        { l.link (RowidNode.ofList (rowids.take insertNum)) with
          rowidNum := l.rowidNum + insertNum }
        (rowids.drop insertNum)

/-- `rowid_list_batch_add`. -/
def rowidListBatchAdd (l : RowidList S) (rowids : List UInt32) : RowidList S :=
  batchAddLoop rowids.length l rowids

/-- The `i`-th rowid, as every walk of a list reads it. -/
def RowidList.rowidAt (l : RowidList S) (i : Nat) : Option UInt32 :=
  (l.nodes[i / 256]?).map fun nd => nd.rowidArray (slotOf i)

end Functions

/-! ## §2. What a list holds. -/

section Contents

variable {S : Type} {l : RowidList S} {xs ys : List UInt32}

/-- The list holds the rowids `xs`, in this order. -/
structure Holds (l : RowidList S) (xs : List UInt32) : Prop where
  num : l.rowidNum = xs.length
  at_eq : ∀ i < xs.length, l.rowidAt i = xs[i]?

/-- As many nodes as the rowids need, and the tail is the last one. -/
structure WellShaped (l : RowidList S) : Prop where
  nodes_length : l.nodes.length = (l.rowidNum + 255) / 256
  tail_eq : l.tail = l.nodes.length - 1

theorem Holds.unique (hx : Holds l xs) (hy : Holds l ys) : xs = ys := by
  have hlen : xs.length = ys.length := hx.num.symm.trans hy.num
  apply ext_getElem? fun i => ?_
  by_cases hi : i < xs.length
  · rw [← hx.at_eq i hi, hy.at_eq i (hlen ▸ hi)]
  · rw [getElem?_eq_none (by omega), getElem?_eq_none (by omega)]

theorem slotOf_val (i : Nat) : (slotOf i).val = i % 256 := rfl

theorem slotOf_ne {i j : Nat} (hnode : i / 256 = j / 256) (hne : i ≠ j) : slotOf i ≠ slotOf j := by
  intro h
  have hval : i % 256 = j % 256 := congrArg Fin.val h
  omega

/-- The rowid at place `p` of a chain. -/
def rowAt (nodes : List (RowidNode S)) (p : Nat) : Option UInt32 :=
  (nodes[p / 256]?).map fun r => r.rowidArray (slotOf p)

section Place

variable {nodes : List (RowidNode S)} {p k : Nat} {x : UInt32} {f : RowidNode S → RowidNode S}
  (hf : ∀ r, (f r).rowidArray = Function.update r.rowidArray (slotOf k) x)

include hf

theorem rowAt_modify_self (hnode : k / 256 < nodes.length) :
    rowAt (nodes.modify (k / 256) f) k = some x := by
  rw [rowAt, getElem?_modify, getElem?_eq_getElem hnode]
  simp [hf]

theorem rowAt_modify_of_ne (hne : p ≠ k) : rowAt (nodes.modify (k / 256) f) p = rowAt nodes p := by
  rw [rowAt, rowAt, getElem?_modify, Option.map_eq_map, Option.map_map]
  congr 1
  funext r
  by_cases hsame : k / 256 = p / 256
  · simp only [Function.comp, if_pos hsame, hf]
    exact Function.update_of_ne (slotOf_ne hsame.symm hne) _ _
  · simp only [Function.comp, if_neg hsame]

/-- A rowid written to the place behind the first ones is the next one. -/
theorem rowAt_append (hk : k = xs.length) (hnode : k / 256 < nodes.length)
    (h : ∀ i < xs.length, rowAt nodes i = xs[i]?) :
    ∀ i < (xs ++ [x]).length, rowAt (nodes.modify (k / 256) f) i = (xs ++ [x])[i]? := by
  intro i hi
  rw [length_append, length_singleton] at hi
  by_cases hix : i < xs.length
  · rw [rowAt_modify_of_ne hf (by omega), getElem?_append_left hix, h i hix]
  · obtain rfl : i = k := by omega
    rw [rowAt_modify_self hf hnode, hk, getElem?_append_right le_rfl]
    simp

end Place

theorem Holds.rowidNum_eq_zero (h : Holds l xs) : l.rowidNum = 0 ↔ xs = [] := by
  rw [h.num, length_eq_zero_iff]

theorem holds_init : Holds (rowidListInit : RowidList S) [] := ⟨rfl, fun _ hi => nomatch hi⟩

theorem wellShaped_init : WellShaped (rowidListInit : RowidList S) :=
  ⟨by simp [rowidListInit], rfl⟩

theorem WellShaped.link_eq (h : WellShaped l) (nd : RowidNode S) :
    l.link nd = ⟨l.rowidNum, l.nodes ++ [nd], l.nodes.length⟩ := by
  unfold RowidList.link
  have htail := h.tail_eq
  cases hn : l.nodes with
  | nil => simp
  | cons a as =>
    rw [hn, length_cons] at htail
    rw [if_neg (by simp), take_of_length_le (by simp [htail])]
    simp [htail]

/-- A node is linked behind full ones. -/
theorem Holds.link (hshape : WellShaped l) (h : Holds l xs) (hfull : l.rowidNum % 256 = 0)
    {nd : RowidNode S} (hys : ys.length ≤ 256)
    (hnd : ∀ i < ys.length, some (nd.rowidArray (slotOf i)) = ys[i]?) :
    Holds { l.link nd with rowidNum := l.rowidNum + ys.length } (xs ++ ys) := by
  have hnum := h.num
  have hnodes := hshape.nodes_length
  rw [hshape.link_eq]
  refine ⟨by simp [hnum], fun i hi => ?_⟩
  rw [length_append] at hi
  by_cases hix : i < xs.length
  · rw [getElem?_append_left hix, ← h.at_eq i hix]
    unfold RowidList.rowidAt
    rw [getElem?_append_left (by omega)]
  · -- position `i` falls into the new node
    have hdiv : i / 256 = l.nodes.length := by omega
    have hslot : slotOf i = slotOf (i - xs.length) := by
      apply Fin.ext
      rw [slotOf_val, slotOf_val]
      omega
    rw [getElem?_append_right (by omega), ← hnd (i - xs.length) (by omega)]
    unfold RowidList.rowidAt
    rw [hdiv, getElem?_append_right (le_refl _), Nat.sub_self, hslot]
    rfl

theorem WellShaped.link (hshape : WellShaped l) (hfull : l.rowidNum % 256 = 0) (nd : RowidNode S)
    {k : Nat} (hpos : 0 < k) (hle : k ≤ 256) :
    WellShaped { l.link nd with rowidNum := l.rowidNum + k } := by
  have hnodes := hshape.nodes_length
  rw [hshape.link_eq]
  refine ⟨?_, by simp⟩
  simp only [length_append, length_cons, length_nil]
  omega

/-- `rowid_list_add` appends. -/
theorem Holds.add (hshape : WellShaped l) (h : Holds l xs) (x : UInt32) :
    Holds (rowidListAdd l x) (xs ++ [x]) ∧ WellShaped (rowidListAdd l x) := by
  have hnum := h.num
  have hnodes := hshape.nodes_length
  have htail := hshape.tail_eq
  unfold rowidListAdd
  by_cases hfull : l.rowidNum % 256 = 0
  · rw [if_pos (by simp [hfull])]
    refine ⟨@Holds.link S l xs [x] hshape h hfull _ (by simp) ?_,
      hshape.link hfull _ (by omega) (by omega)⟩
    intro i hi
    have h0 : i = 0 := by simpa using hi
    subst h0
    simp [RowidNode.set]
  · have hne : l.nodes.isEmpty = false := by
      rw [isEmpty_eq_false_iff]
      intro hnil
      rw [hnil, length_nil] at hnodes
      omega
    rw [if_neg (by simp [hne, hfull])]
    -- the tail node is the one of position `rowid_num`
    have hpos : l.tail = l.rowidNum / 256 := by omega
    have hrows := rowAt_append (f := fun nd => nd.set l.rowidNum x) (fun _ => rfl) hnum
      (by omega) h.at_eq
    rw [← hpos] at hrows
    exact ⟨⟨by simp [hnum], hrows⟩, ⟨by simp; omega, by simp [htail]⟩⟩

theorem Holds.addAll (hshape : WellShaped l) (h : Holds l xs) (ys : List UInt32) :
    Holds (ys.foldl rowidListAdd l) (xs ++ ys) ∧ WellShaped (ys.foldl rowidListAdd l) := by
  induction ys generalizing l xs with
  | nil => simpa using ⟨h, hshape⟩
  | cons y ys ih =>
    obtain ⟨hadd, hshape'⟩ := h.add hshape y
    have := ih hshape' hadd
    rw [append_assoc, singleton_append] at this
    exact this

/-- A batch behind full nodes is appended. -/
theorem Holds.batchAddLoop (fuel : Nat) (hshape : WellShaped l) (h : Holds l xs)
    (hfull : ys ≠ [] → l.rowidNum % 256 = 0) (hfuel : ys.length ≤ fuel) :
    Holds (batchAddLoop fuel l ys) (xs ++ ys) ∧ WellShaped (batchAddLoop fuel l ys) := by
  induction fuel generalizing l xs ys with
  | zero =>
    obtain rfl : ys = [] := length_eq_zero_iff.mp (by omega)
    simpa [DocDb.batchAddLoop] using ⟨h, hshape⟩
  | succ fuel ih =>
    unfold DocDb.batchAddLoop
    by_cases h0 : ys.length = 0
    · obtain rfl := length_eq_zero_iff.mp h0
      simpa using ⟨h, hshape⟩
    · have hfull := hfull fun hnil => h0 (hnil ▸ rfl)
      rw [if_neg h0]
      -- the rowids of this round, and how many there are
      set k := if ys.length / 256 > 0 then 256 else ys.length with hk
      have hkle : k ≤ 256 ∧ 0 < k ∧ k ≤ ys.length ∧ (k = 256 ∨ k = ys.length) := by
        rw [hk]
        split <;> omega
      have htake : (ys.take k).length = k := by rw [length_take]; omega
      have hnode : ∀ i < (ys.take k).length,
          some ((RowidNode.ofList (S := S) (ys.take k)).rowidArray (slotOf i))
            = (ys.take k)[i]? := by
        intro i hi
        have hmod : i % 256 = i := by omega
        simp only [RowidNode.ofList, slotOf_val, hmod, getD_eq_getElem?_getD,
          getElem?_eq_getElem hi, Option.getD_some]
      have hround := h.link hshape hfull (by omega) hnode
      rw [htake] at hround
      -- a round with less than 256 rowids leaves none
      have hnext : ys.drop k ≠ [] → (l.rowidNum + k) % 256 = 0 := fun hne => by
        have hlt := length_pos_iff.mpr hne
        rw [length_drop] at hlt
        omega
      have hrest := ih (hshape.link hfull (RowidNode.ofList (ys.take k)) hkle.2.1 hkle.1)
        hround hnext (by rw [length_drop]; omega)
      rwa [append_assoc, take_append_drop] at hrest

theorem holds_batchAdd (ys : List UInt32) :
    Holds (rowidListBatchAdd (rowidListInit : RowidList S) ys) ys :=
  (holds_init.batchAddLoop ys.length wellShaped_init (fun _ => rfl) le_rfl).1

def ResultHolds (r : Option (RowidList S)) (xs : List UInt32) : Prop :=
  match r with
  | none => xs = []
  | some l => Holds l xs

theorem ResultHolds.unique {r : Option (RowidList S)} (hx : ResultHolds r xs)
    (hy : ResultHolds r ys) : xs = ys := by
  cases r with
  | none => exact hx.trans hy.symm
  | some l => exact Holds.unique hx hy

end Contents

end Mile.DocDb
