/-
  Mile.DocDb.RowidWalk
  ────────────────────
  **WALKS OF ROW ID LISTS** (`storage/docdb/rowid_list.c`).

  `rowid_list_equals` moves its pointers one round late, and `rowid_list_batch_add` starts a
  new node even behind a half full one.
-/
import Mile.DocDb.SetShape
import Mile.Lib.Run

namespace Mile.DocDb

open Lib List

variable {S : Type} {a b l l' : RowidList S} {xs ys : List UInt32}

/-! ## §1. `rowid_list_equals`. -/

/-- The loop with `n` rounds to go, from round `i` on.  Both pointers are moved
together and stand at place `p`; `none` is a read through `NULL`. -/
def equalsLoop (a b : RowidList S) : Nat → Nat → Nat → Option Int
  | 0, _, p => some (if p ≠ a.tail ∨ p ≠ b.tail then 0 else 1)
  | n + 1, i, p => do
    let x ← a.nodes[p]?
    let y ← b.nodes[p]?
    if x.rowidArray (slotOf i) ≠ y.rowidArray (slotOf i) then some 0
    else equalsLoop a b n (i + 1) (if i ≠ 0 ∧ i % 256 = 0 then p + 1 else p)

/-- `rowid_list_equals`; a list may be `NULL`. -/
def rowidListEquals : Option (RowidList S) → Option (RowidList S) → Option Int
  | none, none => some 1
  | some a, some b =>
    if a.rowidNum ≠ b.rowidNum then some 0 else equalsLoop a b a.rowidNum 0 0
  | _, _ => some 0

/-- The place that is read in round `i`. -/
def readAt (i : Nat) : Nat := if i ≠ 0 ∧ i % 256 = 0 then i - 256 else i

/-- The lists differ in the first rowid of their last node only. -/
def Overlooked (xs ys : List UInt32) : Prop :=
  xs.length = ys.length ∧ 256 < xs.length ∧ xs ≠ ys ∧
    ∀ j, j ≠ 256 * ((xs.length - 1) / 256) → xs[j]? = ys[j]?

theorem Holds.readAt (h : Holds l xs) {i : Nat} (hi : i < xs.length) :
    ∃ nd, l.nodes[(i - 1) / 256]? = some nd ∧
      xs[readAt i]? = some (nd.rowidArray (slotOf i)) := by
  have hread : DocDb.readAt i ≤ i ∧ DocDb.readAt i / 256 = (i - 1) / 256 ∧
      DocDb.readAt i % 256 = i % 256 := by
    unfold DocDb.readAt
    split_ifs <;> omega
  have hslot : slotOf (DocDb.readAt i) = slotOf i := Fin.ext hread.2.2
  have hlt : DocDb.readAt i < xs.length := by omega
  have hat := h.at_eq _ hlt
  rw [RowidList.rowidAt, hread.2.1, hslot, getElem?_eq_getElem hlt] at hat
  obtain ⟨nd, hnd, heq⟩ := Option.map_eq_some_iff.mp hat
  exact ⟨nd, hnd, by rw [getElem?_eq_getElem hlt, heq]⟩

section Equals

variable (ha : WellShaped a) (hb : WellShaped b) (hx : Holds a xs) (hy : Holds b ys)
include ha hb hx hy

/-- The loop compares the places it reads. -/
theorem equalsLoop_eq (hlen : xs.length = ys.length) :
    ∀ n i, i + n = xs.length → ∃ r, equalsLoop a b n i ((i - 1) / 256) = some r ∧
      (r = 1 ↔ ∀ j, i ≤ j → j < xs.length → xs[readAt j]? = ys[readAt j]?) := by
  intro n
  induction n with
  | zero =>
    intro i hi
    have hends : ¬ ((i - 1) / 256 ≠ a.tail ∨ (i - 1) / 256 ≠ b.tail) := by
      have h₁ := ha.tail_eq
      have h₂ := hb.tail_eq
      rw [ha.nodes_length, hx.num] at h₁
      rw [hb.nodes_length, hy.num] at h₂
      omega
    exact ⟨1, by rw [equalsLoop, if_neg hends], iff_of_true rfl fun j hij hj => by omega⟩
  | succ n ih =>
    intro i hi
    obtain ⟨x, hxn, hxi⟩ := hx.readAt (show i < xs.length by omega)
    obtain ⟨y, hyn, hyi⟩ := hy.readAt (show i < ys.length by omega)
    simp only [equalsLoop, hxn, hyn, Option.bind_eq_bind, Option.bind_some]
    by_cases heq : x.rowidArray (slotOf i) = y.rowidArray (slotOf i)
    · -- the pointers stand at `i / 256` for the next round
      have hnext : (if i ≠ 0 ∧ i % 256 = 0 then (i - 1) / 256 + 1 else (i - 1) / 256) =
          (i + 1 - 1) / 256 := by
        split_ifs <;> omega
      obtain ⟨r, hr, hiff⟩ := ih (i + 1) (by omega)
      rw [if_neg (not_not.mpr heq), hnext]
      refine ⟨r, hr, hiff.trans ⟨fun h j hij hj => ?_, fun h j hij hj => h j (by omega) hj⟩⟩
      rcases Nat.eq_or_lt_of_le hij with rfl | hlt
      · rw [hxi, hyi, heq]
      · exact h j hlt hj
    · rw [if_pos heq]
      refine ⟨0, rfl, iff_of_false (by decide) fun h => heq ?_⟩
      have hi' := h i le_rfl (by omega)
      rw [hxi, hyi] at hi'
      exact Option.some.inj hi'

/-- **Which rowids are compared**: all but the first one of the last node, if there
is more than one node. -/
theorem rowidListEquals_eq :
    rowidListEquals (some a) (some b) = some 1 ↔ xs.length = ys.length ∧
      ∀ j < xs.length, (j = 256 * ((xs.length - 1) / 256) → xs.length ≤ 256) →
        xs[j]? = ys[j]? := by
  unfold rowidListEquals
  simp only [hx.num, hy.num]
  by_cases hlen : xs.length = ys.length
  · obtain ⟨r, hr, hiff⟩ := equalsLoop_eq ha hb hx hy hlen xs.length 0 (by omega)
    rw [if_neg (not_not.mpr hlen), hr, Option.some.injEq, hiff, and_iff_right hlen]
    constructor
    · intro h j hj hskip
      by_cases hfirst : j ≠ 0 ∧ j % 256 = 0
      · -- the first rowid of a node is read in the first round of the next one
        have hread := h (j + 256) (by omega) (by omega)
        rwa [readAt, if_pos (by omega), Nat.add_sub_cancel] at hread
      · have hread := h j (by omega) hj
        rwa [readAt, if_neg hfirst] at hread
    · intro h j _ hj
      unfold readAt
      split_ifs with hfirst
      · exact h (j - 256) (by omega) (by omega)
      · exact h j hj (by omega)
  · simp [hlen]

/-- **`rowid_list_equals` compares the rowids** of two lists, unless they differ in the
first rowid of their last node only. -/
theorem list_equals_iff :
    (rowidListEquals (some a) (some b) = some 1 ↔ xs = ys) ↔ ¬ Overlooked xs ys := by
  rw [rowidListEquals_eq ha hb hx hy]
  constructor
  · rintro hiff ⟨hlen, hlong, hne, hrest⟩
    exact hne (hiff.mp ⟨hlen, fun j _ hskip => hrest j fun h => by have := hskip h; omega⟩)
  · intro hseen
    constructor
    · rintro ⟨hlen, hall⟩
      by_contra hne
      by_cases hlong : 256 < xs.length
      · refine hseen ⟨hlen, hlong, hne, fun j hj => ?_⟩
        by_cases hlt : j < xs.length
        · exact hall j hlt fun h => absurd h hj
        · rw [getElem?_eq_none (by omega), getElem?_eq_none (by omega)]
      · exact hne (ext_getElem? fun j => by
          by_cases hlt : j < xs.length
          · exact hall j hlt fun _ => by omega
          · rw [getElem?_eq_none (by omega), getElem?_eq_none (by omega)])
    · rintro rfl
      exact ⟨rfl, fun _ _ _ => rfl⟩

end Equals

/-- The list that `rowid_list_add` builds of the numbers below `n`, and one more. -/
def countedList (n : Nat) (last : UInt32) : RowidList Nat :=
  ((range n).map UInt32.ofNat ++ [last]).foldl rowidListAdd rowidListInit

/-- Two lists of 300 rowids in two nodes, with different rowids in the last place. -/
theorem list_equals_iff_two_nodes :
    rowidListEquals (some (countedList 299 1000)) (some (countedList 299 2000)) ≠ some 1 := by
  have hlist := fun last => (holds_init (S := Nat)).addAll wellShaped_init
    ((range 299).map UInt32.ofNat ++ [last])
  have hseen := (list_equals_iff (hlist 1000).2 (hlist 2000).2 (hlist 1000).1 (hlist 2000).1).mpr
    fun h => by simpa using h.2.2.2 299
  exact mt hseen.mp (by simp)

/-- **Two lists of 257 rowids** that differ in the last one. -/
theorem last_node_overlooked :
    let a : RowidList Nat := ⟨257, [.zero, .zero], 1⟩
    let b : RowidList Nat := ⟨257, [.zero, ⟨fun _ => 1, none⟩], 1⟩
    WellShaped a ∧ WellShaped b ∧ a.rowidAt 256 = some 0 ∧ b.rowidAt 256 = some 1 ∧
      rowidListEquals (some a) (some b) = some 1 := by
  exact ⟨⟨rfl, rfl⟩, ⟨rfl, rfl⟩, rfl, rfl, by decide +kernel⟩

/-! ## §2. `rowid_list_batch_add`. -/

/-- The lists are the same to every visitor. -/
def SameVisits (l l' : RowidList S) : Prop :=
  ∀ {σ : Type} (func : UInt32 → σ → σ × Int) (late : Nat → Bool) (userData : σ),
    rowidListForEach (some l) func late userData = rowidListForEach (some l') func late userData

/-- Visits tell the rowids. -/
theorem sameVisits_iff (h : Holds l xs) (h' : Holds l' ys) : SameVisits l l' ↔ xs = ys := by
  have hvisit : ∀ {zs} {r : RowidList S}, Holds r zs → ResultHolds (some r) zs := id
  constructor
  · intro hsame
    have hlist : ∀ zs i s, visit (fun x s => (s ++ [x], 0)) (fun _ => false) i zs s =
        (s ++ zs, 0) := by
      intro zs
      induction zs with
      | nil => simp [visit]
      | cons z zs ih => simp [visit, ih]
    have heq := hsame (fun x s => (s ++ [x], 0)) (fun _ => false) []
    rw [(hvisit h).forEach, (hvisit h').forEach, hlist, hlist] at heq
    exact congrArg Prod.fst (Option.some.inj heq)
  · rintro rfl σ func late s
    rw [(hvisit h).forEach, (hvisit h').forEach]

/-- The two ways of appending. -/
inductive ListOp where
  | add (rowid : UInt32)
  | batchAdd (rowids : List UInt32)

def ListOp.rowids : ListOp → List UInt32
  | add rowid => [rowid]
  | batchAdd rowids => rowids

def ListOp.apply (l : RowidList S) : ListOp → RowidList S
  | add rowid => rowidListAdd l rowid
  | batchAdd rowids => rowidListBatchAdd l rowids

/-- A batch does not start behind a half full node. -/
def ListOp.Aligned (l : RowidList S) : ListOp → Prop
  | add _ => True
  | batchAdd rowids => rowids ≠ [] → l.rowidNum % 256 = 0

theorem WellShaped.exists_holds (h : WellShaped l) : ∃ xs, Holds l xs := by
  refine ⟨(List.range l.rowidNum).map fun i => (l.rowidAt i).getD 0, by simp, fun i hi => ?_⟩
  rw [length_map, length_range] at hi
  have hlt : i / 256 < l.nodes.length := by
    rw [h.nodes_length]
    omega
  simp [hi, RowidList.rowidAt, getElem?_eq_getElem hlt]

theorem Holds.applyAll (hshape : WellShaped l) (h : Holds l xs) {ops : List ListOp}
    (hops : EachStep ListOp.apply ListOp.Aligned l ops) :
    Holds (ops.foldl ListOp.apply l) (xs ++ ops.flatMap ListOp.rowids) := by
  refine (EachStep.foldl_inv (fun done l => WellShaped l ∧
    Holds l (xs ++ done.flatMap ListOp.rowids)) ?_ [] ⟨hshape, by simpa using h⟩ hops).2
  rintro done l op ⟨hshape, h⟩ hop
  rw [flatMap_append, ← append_assoc, flatMap_singleton]
  cases op with
  | add rowid => exact (h.add hshape rowid).symm
  | batchAdd rowids => exact (h.batchAddLoop _ hshape hop le_rfl).symm

/-- A batch behind a half full node leaves the next slot of that node as it is. -/
theorem Holds.batchAdd_half (hshape : WellShaped l) (h : Holds l xs)
    (hhalf : l.rowidNum % 256 ≠ 0) :
    ∃ spare, ∀ x, Holds (rowidListBatchAdd l [x]) (xs ++ [spare]) := by
  have hnum := h.num
  have hnodes := hshape.nodes_length
  have hnode : l.rowidNum / 256 < l.nodes.length := by omega
  refine ⟨l.nodes[l.rowidNum / 256].rowidArray (slotOf l.rowidNum), fun x => ?_⟩
  rw [rowidListBatchAdd, length_singleton, DocDb.batchAddLoop, DocDb.batchAddLoop, hshape.link_eq]
  refine ⟨by simp [hnum], fun i hi => ?_⟩
  rw [length_append, length_singleton] at hi
  have hold : i / 256 < l.nodes.length := by omega
  show (((l.nodes ++ [_])[i / 256]?).map fun nd => nd.rowidArray (slotOf i)) = _
  rw [getElem?_append_left hold]
  by_cases hix : i < xs.length
  · rw [getElem?_append_left hix, ← h.at_eq i hix]
    rfl
  · obtain rfl : i = l.rowidNum := by omega
    rw [getElem?_append_right (by omega), getElem?_eq_getElem hnode,
      show l.rowidNum - xs.length = 0 by omega]
    rfl

/-- **Batches append as `rowid_list_add` does**, mixed with it in any order, if no batch
starts behind a half full node; and on a list with a half full last node there is a
batch that does not. -/
theorem batch_add_appends (h : WellShaped l) :
    (∀ ops : List ListOp, EachStep ListOp.apply ListOp.Aligned l ops →
      SameVisits (ops.foldl ListOp.apply l)
        ((ops.flatMap ListOp.rowids).foldl rowidListAdd l)) ∧
    ((∀ rowids, SameVisits (rowidListBatchAdd l rowids) (rowids.foldl rowidListAdd l)) ↔
      l.rowidNum % 256 = 0) := by
  obtain ⟨xs, hx⟩ := h.exists_holds
  refine ⟨fun ops hops => ?_, fun hsame => ?_, fun hfull rowids => ?_⟩
  · exact (sameVisits_iff (hx.applyAll h hops) (hx.addAll h _).1).mpr rfl
  · by_contra hhalf
    obtain ⟨spare, hspare⟩ := hx.batchAdd_half h hhalf
    have heq := (sameVisits_iff (hspare (spare + 1)) (hx.addAll h _).1).mp (hsame [spare + 1])
    simp at heq
  · exact (sameVisits_iff (hx.batchAddLoop _ h (fun _ => hfull) le_rfl).1
      (hx.addAll h _).1).mpr rfl

theorem batch_add_appends_init :
    SameVisits ([ListOp.batchAdd [3, 2], .add 1].foldl ListOp.apply (rowidListInit : RowidList Nat))
      ([3, 2, 1].foldl rowidListAdd rowidListInit) :=
  (batch_add_appends wellShaped_init).1 [.batchAdd [3, 2], .add 1]
    ⟨fun _ => rfl, trivial, trivial⟩

/-- **A batch behind one rowid** is not visited. -/
theorem batch_behind_half_node :
    let l : RowidList Nat := rowidListAdd rowidListInit 7
    WellShaped l ∧
      rowidListForEach (some (rowidListBatchAdd l [5])) (fun x s => (s ++ [x], 0))
        (fun _ => false) [] = some ([7, 0], 0) ∧
      rowidListForEach (some (rowidListAdd l 5)) (fun x s => (s ++ [x], 0))
        (fun _ => false) [] = some ([7, 5], 0) :=
  ⟨⟨rfl, rfl⟩, rfl, rfl⟩

end Mile.DocDb
