/-
  Mile.Ldb.Comparator
  ───────────────────
  **THE ORDER OF THE KEYS** (`storage/ldb/LdbComparator.cpp`).

  A key is the row key with the time behind it.  The row keys are ordered byte by byte, keys of
  one row by the time.  The keys of an index block are shortened in front of the time.
-/
import Mile.Common.Compare
import Mile.Lib.OrderedStore

namespace Mile.Ldb

open Lib Common List

/-! ## §1. The comparator. -/

/-- The sign of `memcmp` on the bytes two strings have in common. -/
def memcmp : Bytes → Bytes → Int
  | p :: ps, q :: qs => if p = q then memcmp ps qs else if p < q then -1 else 1
  | _, _ => 0

/-- `LdbComparator`, as far as `Compare` reads it. -/
structure LdbComparator where
  timeLen : Nat
  useHostTime : Bool
  deriving DecidableEq

def keyTime (timeLen : Nat) (key : Bytes) : Nat := leNat (key.drop (key.length - timeLen))

def keyRow (timeLen : Nat) (key : Bytes) : Bytes := key.take (key.length - timeLen)

/-- `LdbComparator::Compare`, for times of 0, 4 and 8 bytes (others abort). -/
def LdbComparator.compare (c : LdbComparator) (a b : Bytes) : Int :=
  let common := min a.length b.length - c.timeLen
  let rc := memcmp (a.take common) (b.take common)
  if rc ≠ 0 then rc
  else if a.length < b.length then -1
  else if a.length > b.length then 1
  else if c.timeLen = 0 || c.useHostTime then 0
  else
    let aV := keyTime c.timeLen a
    let bV := keyTime c.timeLen b
    if aV < bV then -1 else if aV > bV then 1 else 0

/-! ## §2. Ranks. -/

def rowRank (row : Bytes) : List Int := row.map fun b => (b.toNat : Int)

def ldbRank (timeLen : Nat) (key : Bytes) : Lex (List Int × Nat) :=
  toLex (rowRank (keyRow timeLen key), keyTime timeLen key)

theorem rowRank_injective : Function.Injective rowRank := by
  refine map_injective_iff.mpr fun a b h => ?_
  exact UInt8.toNat_inj.mp (Int.ofNat.inj h)

/-- `memcmp` and the lengths order by rank. -/
theorem comp_rowRank (p q : Bytes) :
    comp (rowRank p) (rowRank q) =
      if memcmp p q ≠ 0 then memcmp p q
      else if p.length < q.length then -1 else if p.length > q.length then 1 else 0 := by
  induction p generalizing q with
  | nil => cases q <;> simp [memcmp, comp, rowRank]
  | cons a p ih =>
    cases q with
    | nil => simp [memcmp, comp, rowRank]
    | cons b q =>
      have hlt : ∀ x y : UInt8, (x.toNat : Int) < y.toNat ↔ x < y := fun x y => by
        rw [Int.ofNat_lt, UInt8.lt_iff_toNat_lt]
      have heq : ∀ x y : UInt8, (x.toNat : Int) = y.toNat ↔ x = y := fun x y => by
        rw [Int.natCast_inj, UInt8.toNat_inj]
      simp only [memcmp, length_cons, Nat.add_lt_add_iff_right, gt_iff_lt]
      have hcons : comp (rowRank (a :: p)) (rowRank (b :: q)) =
          if a = b then comp (rowRank p) (rowRank q) else if a < b then -1 else 1 := by
        simp only [comp, rowRank, map_cons, cons_lt_cons_iff, hlt, heq]
        rcases lt_trichotomy a.toNat b.toNat with h | h | h
        · have hab : a < b := UInt8.lt_iff_toNat_lt.mpr h
          simp [hab, UInt8.lt_asymm hab, UInt8.ne_of_lt hab, (UInt8.ne_of_lt hab).symm]
        · simp only [UInt8.toNat_inj.mp h, UInt8.lt_irrefl, false_or, true_and, if_true]
          congr
        · have hab : b < a := UInt8.lt_iff_toNat_lt.mpr h
          simp [hab, UInt8.lt_asymm hab, UInt8.ne_of_lt hab, (UInt8.ne_of_lt hab).symm]
      rw [hcons]
      by_cases hab : a = b
      · simpa [hab] using ih q
      · by_cases hlt' : a < b <;> simp [hab, hlt']

theorem comp_self {α : Type} [LinearOrder α] [DecidableLT α] (a : α) : comp a a = 0 :=
  comp_eq_zero.mpr rfl

theorem comp_toLex {α β : Type} [LinearOrder α] [DecidableLT α] [LinearOrder β] [DecidableLT β]
    (a a' : α) (b b' : β) :
    comp (toLex (a, b)) (toLex (a', b')) =
      if comp a a' ≠ 0 then comp a a' else comp b b' := by
  rcases lt_trichotomy a a' with h | rfl | h
  · rw [comp_eq_neg_one.mpr h, if_pos (by decide)]
    exact comp_eq_neg_one.mpr (Prod.Lex.toLex_lt_toLex.mpr (.inl h))
  · rw [comp_self, if_neg (by decide)]
    rcases lt_trichotomy b b' with h | rfl | h
    · rw [comp_eq_neg_one.mpr h]
      exact comp_eq_neg_one.mpr (Prod.Lex.toLex_lt_toLex.mpr (.inr ⟨rfl, h⟩))
    · rw [comp_self, comp_self]
    · rw [comp_eq_one.mpr h]
      exact comp_eq_one.mpr (Prod.Lex.toLex_lt_toLex.mpr (.inr ⟨rfl, h⟩))
  · rw [comp_eq_one.mpr h, if_pos (by decide)]
    exact comp_eq_one.mpr (Prod.Lex.toLex_lt_toLex.mpr (.inl h))

theorem memcmp_take {a b : Bytes} {n : Nat} (h : min a.length b.length ≤ n) :
    memcmp (a.take n) (b.take n) = memcmp a b := by
  induction a generalizing b n with
  | nil => simp [memcmp]
  | cons p ps ih =>
    cases b with
    | nil => simp [memcmp]
    | cons q qs =>
      obtain ⟨m, rfl⟩ : ∃ m, n = m + 1 := ⟨n - 1, by simp at h; omega⟩
      simp only [take_succ_cons, memcmp]
      rw [ih (by simp at h; omega)]

theorem compareTime_eq (timeLen : Nat) (a b : Bytes) :
    (if (decide (timeLen = 0) || false) = true then 0
      else if keyTime timeLen a < keyTime timeLen b then -1
      else if keyTime timeLen a > keyTime timeLen b then 1 else 0) =
      comp (keyTime timeLen a) (keyTime timeLen b) := by
  by_cases htime : timeLen = 0
  · -- no time: no bytes, no number
    simp [htime, keyTime, comp]
  · rcases lt_trichotomy (keyTime timeLen a) (keyTime timeLen b) with h | h | h
    · simp [htime, h, comp_eq_neg_one.mpr h]
    · simp [htime, h, comp_self]
    · simp [htime, h, Nat.lt_asymm h, comp_eq_one.mpr h]

variable {timeLen : Nat}

/-- The comparator orders keys by rank. -/
theorem compare_eq {a b : Bytes} (ha : timeLen ≤ a.length) (hb : timeLen ≤ b.length) :
    (LdbComparator.mk timeLen false).compare a b =
      comp (ldbRank timeLen a) (ldbRank timeLen b) := by
  have hmem : memcmp (a.take (min a.length b.length - timeLen))
      (b.take (min a.length b.length - timeLen)) =
      memcmp (keyRow timeLen a) (keyRow timeLen b) := by
    rw [← @memcmp_take (keyRow timeLen a) (keyRow timeLen b) (min a.length b.length - timeLen)]
    · unfold keyRow
      rw [take_take, take_take]
      congr 2 <;> omega
    · simp [keyRow]
      omega
  have hlen : ∀ k : Bytes, (keyRow timeLen k).length = k.length - timeLen := by
    intro k
    simp [keyRow]
  unfold ldbRank
  rw [comp_toLex, comp_rowRank, hlen, hlen]
  simp only [LdbComparator.compare, hmem]
  by_cases hrow : memcmp (keyRow timeLen a) (keyRow timeLen b) = 0
  · rcases lt_trichotomy a.length b.length with hlt | heq | hgt
    · have hlt' : a.length - timeLen < b.length - timeLen := by omega
      simp [hrow, hlt, hlt']
    · rw [if_neg (not_not.mpr hrow), if_neg (not_not.mpr hrow), if_neg heq.not_lt,
        if_neg heq.not_gt, heq, if_neg (lt_irrefl _), if_neg (lt_irrefl _), compareTime_eq]
      rfl
    · have hgt' : b.length - timeLen < a.length - timeLen := by omega
      simp [hrow, hgt, hgt', Nat.lt_asymm hgt, Nat.lt_asymm hgt']
  · simp [hrow]

/-! ## §3. The store. -/

/-- A `leveldb` store in the order of the comparator. -/
abbrev LevelDb (timeLen : Nat) : Type := OrderedStore (ldbRank timeLen) Bytes

def LevelDb.Timed {timeLen : Nat} (db : LevelDb timeLen) : Prop :=
  ∀ e ∈ db.entries, timeLen ≤ e.1.length

/-! ## §4. The contract of a comparator. -/

/-- The loop of `FindShortestSeparator`: how far two strings agree. -/
def diffIndex : Bytes → Bytes → Nat
  | p :: ps, q :: qs => if p = q then diffIndex ps qs + 1 else 0
  | _, _ => 0

def timeBytes (timeLen : Nat) (key : Bytes) : Bytes := key.drop (key.length - timeLen)

/-- Count byte `i` of a key up and leave out what is between it and the time. -/
def cutKey (timeLen : Nat) (key : Bytes) (i : Nat) : Bytes :=
  key.take i ++ [key.getD i 0 + 1] ++ timeBytes timeLen key

/-- The key `k` is not longer and has the same time. -/
def Shortens (timeLen : Nat) (key k : Bytes) : Prop :=
  timeLen ≤ k.length ∧ k.length ≤ key.length ∧ timeBytes timeLen k = timeBytes timeLen key

namespace LdbComparator

/-- `LdbComparator::FindShortestSeparator`. -/
def findShortestSeparator (c : LdbComparator) (start limit : Bytes) : Bytes :=
  let common := min start.length limit.length - c.timeLen
  let i := diffIndex (start.take common) (limit.take common)
  if common ≤ i then start
  else if start.getD i 0 < 0xff ∧ (start.getD i 0).toNat + 1 < (limit.getD i 0).toNat then
    cutKey c.timeLen start i
  else start

/-- `LdbComparator::FindShortSuccessor`. -/
def findShortSuccessor (c : LdbComparator) (key : Bytes) : Bytes :=
  match (keyRow c.timeLen key).findIdx? (· ≠ 0xff) with
  | some i => cutKey c.timeLen key i
  | none => key

/-- The contract of `leveldb::Comparator`, for keys that have a time. -/
structure Contract (c : LdbComparator) : Prop where
  eq_iff : ∀ {a b}, c.timeLen ≤ a.length → c.timeLen ≤ b.length → (c.compare a b = 0 ↔ a = b)
  swap : ∀ {a b}, c.timeLen ≤ a.length → c.timeLen ≤ b.length → c.compare b a = -c.compare a b
  trans : ∀ {a b d}, c.timeLen ≤ a.length → c.timeLen ≤ b.length → c.timeLen ≤ d.length →
    c.compare a b ≤ 0 → c.compare b d ≤ 0 → c.compare a d ≤ 0
  lt_iff : ∀ {a b}, c.timeLen ≤ a.length → c.timeLen ≤ b.length → (c.compare a b < 0 ↔
    keyRow c.timeLen a < keyRow c.timeLen b ∨
      keyRow c.timeLen a = keyRow c.timeLen b ∧ keyTime c.timeLen a < keyTime c.timeLen b)
  separator : ∀ {start limit}, c.timeLen ≤ start.length → c.timeLen ≤ limit.length →
    c.compare start limit < 0 →
    c.compare start (c.findShortestSeparator start limit) ≤ 0 ∧
      c.compare (c.findShortestSeparator start limit) limit < 0 ∧
      Shortens c.timeLen start (c.findShortestSeparator start limit)
  successor : ∀ {key}, c.timeLen ≤ key.length →
    c.compare key (c.findShortSuccessor key) ≤ 0 ∧ Shortens c.timeLen key (c.findShortSuccessor key)

end LdbComparator

theorem rowRank_lt {p q : Bytes} : rowRank p < rowRank q ↔ p < q := by
  induction p generalizing q with
  | nil => cases q <;> simp [rowRank]
  | cons a p ih =>
    cases q with
    | nil => simp [rowRank]
    | cons b q =>
      have hcons := @ih q
      simp only [rowRank] at hcons
      simp only [rowRank, map_cons, cons_lt_cons_iff, hcons, Int.ofNat_lt, Int.natCast_inj,
        UInt8.lt_iff_toNat_lt, UInt8.toNat_inj]

theorem ldbRank_inj {a b : Bytes} (ha : timeLen ≤ a.length) (hb : timeLen ≤ b.length)
    (h : ldbRank timeLen a = ldbRank timeLen b) : a = b := by
  obtain ⟨hrow, htime⟩ := Prod.mk.inj (toLex.injective h)
  have hlen : ∀ k : Bytes, timeLen ≤ k.length → (timeBytes timeLen k).length = timeLen := by
    intro k hk
    rw [timeBytes, length_drop]
    omega
  have hbytes : timeBytes timeLen a = timeBytes timeLen b := by
    rw [← leBytes_leNat (timeBytes timeLen a), ← leBytes_leNat (timeBytes timeLen b), hlen a ha,
      hlen b hb]
    exact congrArg _ htime
  rw [← take_append_drop (a.length - timeLen) a, ← take_append_drop (b.length - timeLen) b]
  exact congrArg₂ _ (rowRank_injective hrow) hbytes

theorem comp_swap {α : Type} [LinearOrder α] [DecidableLT α] (a b : α) : comp b a = -comp a b := by
  unfold comp
  omega

theorem compare_lt_iff {a b : Bytes} (ha : timeLen ≤ a.length) (hb : timeLen ≤ b.length) :
    (LdbComparator.mk timeLen false).compare a b < 0 ↔
      keyRow timeLen a < keyRow timeLen b ∨
        keyRow timeLen a = keyRow timeLen b ∧ keyTime timeLen a < keyTime timeLen b := by
  rw [compare_eq ha hb, comp_neg_iff, ldbRank, ldbRank, Prod.Lex.toLex_lt_toLex, rowRank_lt,
    rowRank_injective.eq_iff]

section Cut

variable {timeLen : Nat} {key : Bytes} {i : Nat}

theorem keyRow_split (h : i < key.length - timeLen) :
    ∃ rest, keyRow timeLen key = key.take i ++ key.getD i 0 :: rest := by
  have hi : i < (keyRow timeLen key).length := by
    rw [keyRow, length_take]
    omega
  refine ⟨(keyRow timeLen key).drop (i + 1), ?_⟩
  conv_lhs => rw [← take_append_drop i (keyRow timeLen key), drop_eq_getElem_cons hi]
  have hkey : i < key.length := by omega
  simp only [keyRow, take_take, getElem_take, min_eq_left h.le, getD_eq_getElem?_getD,
    getElem?_eq_getElem hkey, Option.getD_some]

theorem cutKey_row (hkey : timeLen ≤ key.length) (h : i < key.length - timeLen) :
    keyRow timeLen (cutKey timeLen key i) = key.take i ++ [key.getD i 0 + 1] ∧
      Shortens timeLen key (cutKey timeLen key i) := by
  have htime : (timeBytes timeLen key).length = timeLen := by
    rw [timeBytes, length_drop]
    omega
  have hfront : (key.take i ++ [key.getD i 0 + 1]).length = i + 1 := by
    simp
    omega
  have hlen : (cutKey timeLen key i).length = i + 1 + timeLen := by
    rw [cutKey, length_append, hfront, htime]
  refine ⟨?_, by omega, by omega, ?_⟩
  · rw [keyRow, hlen, Nat.add_sub_cancel]
    exact take_left' hfront
  · rw [timeBytes, hlen, Nat.add_sub_cancel]
    exact drop_left' hfront

theorem row_lt {pre s s' : Bytes} {x y : UInt8} (h : x < y) : pre ++ x :: s < pre ++ y :: s' :=
  Lex.append_left _ (Lex.rel h) pre

theorem add_one_toNat {b : UInt8} (h : b < 0xff) : (b + 1).toNat = b.toNat + 1 := by
  rw [UInt8.lt_iff_toNat_lt] at h
  rw [UInt8.toNat_add]
  exact Nat.mod_eq_of_lt (by have : (0xff : UInt8).toNat = 255 := rfl; simp; omega)

theorem lt_cutKey (hkey : timeLen ≤ key.length) (h : i < key.length - timeLen)
    (hbyte : key.getD i 0 < 0xff) :
    (LdbComparator.mk timeLen false).compare key (cutKey timeLen key i) < 0 := by
  obtain ⟨hrow, hlen, -⟩ := cutKey_row hkey h
  obtain ⟨rest, hsplit⟩ := keyRow_split h
  rw [compare_lt_iff hkey hlen, hrow, hsplit]
  refine .inl (row_lt ?_)
  rw [UInt8.lt_iff_toNat_lt, add_one_toNat hbyte]
  exact Nat.lt_succ_self _

end Cut

theorem diffIndex_take (p q : Bytes) : p.take (diffIndex p q) = q.take (diffIndex p q) := by
  induction p generalizing q with
  | nil => cases q <;> simp [diffIndex]
  | cons a p ih =>
    cases q with
    | nil => simp [diffIndex]
    | cons b q =>
      unfold diffIndex
      split_ifs with h
      · rw [take_succ_cons, take_succ_cons, h, ih]
      · rfl

/-- **The order of the keys meets the contract**, without host time. -/
theorem comparator_contract (timeLen : Nat) : (LdbComparator.mk timeLen false).Contract where
  eq_iff ha hb := by
    rw [compare_eq ha hb, comp_eq_zero]
    exact ⟨ldbRank_inj ha hb, fun h => h ▸ rfl⟩
  swap ha hb := by
    rw [compare_eq ha hb, compare_eq hb ha, comp_swap]
  trans ha hb hd hab hbd := by
    rw [compare_eq ha hb, comp_nonpos_iff] at hab
    rw [compare_eq hb hd, comp_nonpos_iff] at hbd
    rw [compare_eq ha hd, comp_nonpos_iff]
    exact hab.trans hbd
  lt_iff := compare_lt_iff
  separator {start limit} hstart hlimit hlt := by
    have hself : (LdbComparator.mk timeLen false).compare start start = 0 := by
      rw [compare_eq hstart hstart, comp_self]
    have hkeep := And.intro hself.le (And.intro hlt
      (⟨hstart, le_rfl, rfl⟩ : Shortens timeLen start start))
    unfold LdbComparator.findShortestSeparator
    simp only
    split_ifs with hcommon hbyte
    · exact hkeep
    · generalize hi : diffIndex (start.take (min start.length limit.length - timeLen))
        (limit.take (min start.length limit.length - timeLen)) = i at *
      have hpre : start.take i = limit.take i := by
        have htake := diffIndex_take (start.take (min start.length limit.length - timeLen))
          (limit.take (min start.length limit.length - timeLen))
        rwa [hi, take_take, take_take, min_eq_left (not_le.mp hcommon).le] at htake
      have hin : i < start.length - timeLen ∧ i < limit.length - timeLen := by omega
      obtain ⟨hrow, hshort⟩ := cutKey_row hstart hin.1
      obtain ⟨rest, hsplit⟩ := keyRow_split hin.2
      refine ⟨(lt_cutKey hstart hin.1 hbyte.1).le, ?_, hshort⟩
      rw [compare_lt_iff hshort.1 hlimit, hrow, hsplit, hpre]
      refine .inl (row_lt ?_)
      rw [UInt8.lt_iff_toNat_lt, add_one_toNat hbyte.1]
      exact hbyte.2
    · exact hkeep
  successor {key} hkey := by
    unfold LdbComparator.findShortSuccessor
    split
    · rename_i i hi
      obtain ⟨hlt, hbyte, -⟩ := findIdx?_eq_some_iff_getElem.mp hi
      have hlen : i < key.length - timeLen := by
        simpa [keyRow] using hlt
      refine ⟨(lt_cutKey hkey hlen ?_).le, (cutKey_row hkey hlen).2⟩
      have hget : (keyRow timeLen key)[i] = key.getD i 0 := by
        simp [keyRow, getD_eq_getElem?_getD, getElem?_eq_getElem (show i < key.length by omega)]
      rw [hget, decide_eq_true_iff, Ne, ← UInt8.toNat_inj] at hbyte
      rw [UInt8.lt_iff_toNat_lt]
      exact lt_of_le_of_ne (Nat.le_of_lt_succ (UInt8.toNat_lt _)) hbyte
    · rw [compare_eq hkey hkey, comp_self]
      exact ⟨le_rfl, hkey, le_rfl, rfl⟩

end Mile.Ldb
