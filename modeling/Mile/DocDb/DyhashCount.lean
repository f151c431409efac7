/-
  Mile.DocDb.DyhashCount
  ──────────────────────
  **COUNTS OF THE DYNAMIC HASH INDEX** (`dyhash_index_count_query`).

  A count adds the counters of the buckets a query would read.  A full table says so before it
  looks for the docid, so a term repeated there is counted twice and found once.
-/
import Mile.DocDb.DyhashTable

namespace Mile.DocDb

open Lib Common List

/-- `dyhash_index_count_query`. -/
def dyhashIndexCountQuery (T : DyhashIndex) (data : LowData) : UInt32 :=
  (T.front ++ [T.tail]).foldl (fun result t => result + t.countQuery data) 0

/-! ## §1. The index by its puts. -/

def HasLog (hashmod : Nat) (hpos : 0 < hashmod) (t : DyhashSingleIndex) (log : List Put) : Prop :=
  PutLog hashmod log ∧ ∃ index, t = tableOf hashmod hpos index log

/-- The tables in front have the puts `front`, the last one `last`. -/
structure IndexLogs (T : DyhashIndex) (front : List (List Put)) (last : List Put) : Prop where
  size : T.hashmod * docMultipleNum ≤ cellBound
  front : Forall₂ (HasLog T.hashmod T.hashmod_pos) T.front front
  tail : HasLog T.hashmod T.hashmod_pos T.tail last

theorem indexLogs_init (hashmod : Nat) (hpos : 0 < hashmod)
    (hsize : hashmod * docMultipleNum ≤ cellBound) :
    IndexLogs (dyhashIndexInit hashmod hpos) [] [] :=
  ⟨hsize, Forall₂.nil, putLog_nil hsize, 1, rfl⟩

section Index

variable {T T' : DyhashIndex} {front : List (List Put)} {last : List Put} {v : LowData}
  {d : UInt32}

theorem IndexLogs.tables (h : IndexLogs T front last) :
    Forall₂ (HasLog T.hashmod T.hashmod_pos) (T.front ++ [T.tail]) (front ++ [last]) :=
  rel_append h.front (Forall₂.cons h.tail Forall₂.nil)

theorem IndexLogs.putLog (h : IndexLogs T front last) :
    ∀ log ∈ front ++ [last], PutLog T.hashmod log := by
  have hall : ∀ (ts : List DyhashSingleIndex) (logs : List (List Put)),
      Forall₂ (HasLog T.hashmod T.hashmod_pos) ts logs → ∀ log ∈ logs, PutLog T.hashmod log := by
    intro ts logs hlogs
    induction hlogs with
    | nil => exact fun _ hmem => nomatch hmem
    | cons ht _ ih => exact forall_mem_cons.mpr ⟨ht.1, ih⟩
  exact hall _ _ h.tables

/-- **One insert**: a docid not smaller is in the last table, or there is one
more put in it, or one in a new table. -/
theorem IndexLogs.step (h : IndexLogs T front last) (hk : getHashValue v ≠ 0)
    (hstep : dyhashStep T (v, d) = some T') :
    (T' = T ∧ ∃ q ∈ last, q.key = getHashValue v ∧ d ≤ q.doc) ∨
      ∃ p : Put, (NewPut T.hashmod last (getHashValue v) d p ∧ IndexLogs T' front (p :: last)) ∨
        (NewPut T.hashmod [] (getHashValue v) d p ∧ IndexLogs T' (front ++ [last]) [p]) := by
  obtain ⟨hsize, hfront, hlog, index, htail⟩ := h
  obtain ⟨hlen, ⟨t, hins, rfl⟩ | ⟨t₀, t, index', hfull, hins, rfl⟩⟩ := dyhashStep_cases hstep
  · rw [htail] at hins
    rcases hlog.insert hlen hk d with hone | ⟨hthere, hsame⟩ | ⟨p, hnew, hput⟩
    · rw [hins] at hone
      cases hone
    · -- the docid is refused
      rw [hins] at hsame
      have hunchanged : t = T.tail := (congrArg Prod.fst hsame).trans htail.symm
      refine .inl ⟨?_, hthere⟩
      rw [hunchanged]
    · rw [hins] at hput
      exact .inr ⟨p, .inl ⟨hnew, hsize, hfront, hnew.putLog, index, congrArg Prod.fst hput⟩⟩
  · -- the last table is left as it was
    have hleft : t₀ = T.tail := by
      rw [htail] at hfull ⊢
      rcases hlog.insert hlen hk d with hone | ⟨-, hsame⟩ | ⟨p, -, hput⟩
      · rw [hfull] at hone
        exact congrArg Prod.fst hone
      · rw [hfull] at hsame
        cases hsame
      · rw [hfull] at hput
        cases hput
    subst hleft
    have hnew : createSingleIndex T.hashmod T.hashmod_pos index'
        = tableOf T.hashmod T.hashmod_pos index' [] := rfl
    rw [hnew] at hins
    rcases (putLog_nil hsize).insert hlen hk d with hone | ⟨⟨q, hq, -⟩, -⟩ | ⟨p, hnew, hput⟩
    · rw [hins] at hone
      cases hone
    · cases hq
    · rw [hins] at hput
      refine .inr ⟨p, .inr ⟨hnew, hsize, ?_, hnew.putLog, index', congrArg Prod.fst hput⟩⟩
      exact rel_append hfront (Forall₂.cons ⟨hlog, index, htail⟩ Forall₂.nil)

/-! ## §2. Adding up and uniting. -/

theorem foldl_mergeDesc_length {answers : List (List UInt32)}
    (hdesc : ∀ ds ∈ answers, ds.Pairwise (· > ·)) (hnodup : answers.flatten.Nodup) :
    (answers.foldl mergeDesc []).length = answers.flatten.length := by
  obtain ⟨hds, hmem⟩ := foldl_mergeDesc Pairwise.nil hdesc
  have hperm : (answers.foldl mergeDesc []).Perm answers.flatten := by
    refine (perm_ext_iff_of_nodup (hds.imp fun h => (UInt32.ne_of_lt h).symm)
      hnodup).mpr fun e => ?_
    rw [hmem e, mem_flatten]
    simp
  exact hperm.length_eq

theorem countQuery_fold {hashmod : Nat} {hpos : 0 < hashmod} (v : LowData)
    {ts : List DyhashSingleIndex} {logs : List (List Put)}
    (h : Forall₂ (HasLog hashmod hpos) ts logs) :
    ∀ n : Nat, ts.foldl (fun result t => result + t.countQuery v) (UInt32.ofNat n)
      = UInt32.ofNat (n + (logs.map fun log => answerOf hashmod log v).flatten.length) := by
  induction h with
  | nil =>
    intro n
    simp
  | cons ht _ ih =>
    intro n
    obtain ⟨hlog, index, rfl⟩ := ht
    rw [foldl_cons, hlog.countQuery, ← UInt32.ofNat_add, ih, map_cons,
      flatten_cons, length_append, Nat.add_assoc]

def answersOf (hashmod : Nat) (logs : List (List Put)) (v : LowData) : List (List UInt32) :=
  logs.map fun log => answerOf hashmod log v

theorem IndexLogs.query {S : Type} [Zero S] [Add S] (h : IndexLogs T front last) (v : LowData) :
    ∃ r : Option (RowidList S), dyhashIndexQuery T v = some r ∧
      Answered r ((answersOf T.hashmod (front ++ [last]) v).foldl mergeDesc []) := by
  refine query_fold rowidUnion_answered v ?_ (⟨rfl, fun _ => rfl⟩ : Answered none [])
  unfold answersOf
  rw [forall₂_map_right_iff]
  refine h.tables.imp fun t log ht => ?_
  obtain ⟨hlog, index, rfl⟩ := ht
  exact hlog.query v

theorem IndexLogs.countQuery (h : IndexLogs T front last) (v : LowData) :
    dyhashIndexCountQuery T v
      = UInt32.ofNat (answersOf T.hashmod (front ++ [last]) v).flatten.length := by
  have hcount := countQuery_fold v h.tables 0
  rw [Nat.zero_add] at hcount
  exact hcount

theorem IndexLogs.answers_desc (h : IndexLogs T front last) (v : LowData) :
    ∀ ds ∈ answersOf T.hashmod (front ++ [last]) v, ds.Pairwise (· > ·) := by
  intro ds hds
  obtain ⟨log, hlog, rfl⟩ := mem_map.mp hds
  exact (h.putLog log hlog).answer_desc v

def Put.pair (p : Put) : UInt64 × UInt32 := (p.key, p.doc)

/-- Terms put once are answered once. -/
theorem answers_nodup {hashmod : Nat} (hpos : 0 < hashmod) (v : LowData) :
    ∀ {logs : List (List Put)}, (∀ log ∈ logs, PutLog hashmod log) →
      (logs.flatten.map Put.pair).Nodup →
        (answersOf hashmod logs v).flatten.Nodup
  | [], _, _ => nodup_nil
  | log :: logs, hlogs, hnodup => by
    rw [flatten_cons, map_append, nodup_append] at hnodup
    obtain ⟨-, hrest, hdisj⟩ := hnodup
    have hlog := hlogs log mem_cons_self
    rw [answersOf, map_cons, flatten_cons, nodup_append]
    refine ⟨(hlog.answer_desc v).imp fun h => (UInt32.ne_of_lt h).symm,
      answers_nodup hpos v (fun l hl => hlogs l (mem_cons_of_mem _ hl)) hrest, ?_⟩
    -- a docid of two answers was put twice
    intro a ha b hb hab
    subst hab
    obtain ⟨ds, hds, hads⟩ := mem_flatten.mp hb
    obtain ⟨log', hlog', rfl⟩ := mem_map.mp hds
    obtain ⟨p, hp, hpk, hpd⟩ := hlog.mem_answer hpos ha
    obtain ⟨q, hq, hqk, hqd⟩ := (hlogs log' (mem_cons_of_mem _ hlog')).mem_answer hpos hads
    refine hdisj p.pair (mem_map_of_mem hp) q.pair
      (mem_map_of_mem (mem_flatten.mpr ⟨log', hlog', hq⟩)) ?_
    rw [Put.pair, Put.pair, hpk, hqk, hpd, hqd]

/-! ## §3. Runs. -/

/-- No docid was put twice under one hash, and only what was inserted was
put. -/
structure TermsOnce (done : List (LowData × UInt32)) (T : DyhashIndex) : Prop where
  logs : ∃ front last, IndexLogs T front last ∧
    ((front ++ [last]).flatten.map Put.pair).Nodup ∧
    ∀ p ∈ (front ++ [last]).flatten, ∃ i ∈ done, (getHashValue i.1, i.2) = p.pair

/-- The table has a free cell, and a docid not smaller than `d` in front of the
chain of the hash. -/
abbrev Refuses (t : DyhashSingleIndex) (k : UInt64) (d : UInt32) : Prop :=
  t.doclist.curOffset ≠ t.doclist.rowLimit ∧ ∃ s ∈ t.find conflictRetryNum k,
    t.key s ≠ 0 ∧ (t.bucket s).offset ≠ 0 ∧ d ≤ t.doclist.docId (t.bucket s).offset.toNat

theorem Refuses.insert {t : DyhashSingleIndex} (h : Refuses t (getHashValue v) d)
    (hlen : v.len ≠ 0) : t.insert v d = (t, 0) := by
  obtain ⟨hroom, s, hfind, hkey, hoff, hle⟩ := h
  have hdoclist : doclistInsertV2 t.doclist d (t.bucket s).offset s = (t.doclist, 0) := by
    unfold doclistInsertV2 Doclist.push
    rw [if_neg hroom, if_neg hoff, if_pos hle]
  have hkey' : ¬ (t.bucket s).hashValue = 0 := hkey
  unfold DyhashSingleIndex.insert DyhashSingleIndex.bucketInsert
  rw [if_neg hlen, Option.mem_def.mp hfind]
  simp only [if_neg hkey', hdoclist]
  rfl

theorem Refuses.step (h : Refuses T.tail (getHashValue v) d)
    (hstep : dyhashStep T (v, d) = some T') : T' = T := by
  obtain ⟨hlen, hcases⟩ := dyhashStep_cases hstep
  have hsame := h.insert hlen
  rcases hcases with ⟨t, hins, rfl⟩ | ⟨t₀, t, index, hfull, -, -⟩
  · rw [hsame] at hins
    cases hins
    rfl
  · rw [hsame] at hfull
    cases hfull

/-- The hash of the next term is not the mark of free buckets, and a docid that
was inserted under it before stands in the last table, which has room. -/
abbrev CountTerm (s : DyhashIndex × List (LowData × UInt32)) (i : LowData × UInt32) : Prop :=
  getHashValue i.1 ≠ 0 ∧
    ((∃ j ∈ s.2, (getHashValue j.1, j.2) = (getHashValue i.1, i.2)) →
      Refuses s.1.tail (getHashValue i.1) i.2)

/-- The step lemma of the counts. -/
theorem TermsOnce.step {done : List (LowData × UInt32)} {i : LowData × UInt32}
    (h : TermsOnce done T) (hterm : CountTerm (T, done) i) (hstep : dyhashStep T i = some T') :
    TermsOnce (done ++ [i]) T' := by
  obtain ⟨front, last, hlogs, hnodup, hfrom⟩ := h
  obtain ⟨hk, hrepeat⟩ := hterm
  have hkeep : ∀ p ∈ (front ++ [last]).flatten,
      ∃ j ∈ done ++ [i], (getHashValue j.1, j.2) = p.pair := by
    intro p hp
    obtain ⟨j, hj, hpair⟩ := hfrom p hp
    exact ⟨j, mem_append_left _ hj, hpair⟩
  by_cases hold : ∃ j ∈ done, (getHashValue j.1, j.2) = (getHashValue i.1, i.2)
  · -- inserted before: nothing changes
    rw [(hrepeat hold).step hstep]
    exact ⟨front, last, hlogs, hnodup, hkeep⟩
  rcases hlogs.step hk hstep with ⟨rfl, -⟩ | ⟨p, hnew⟩
  · exact ⟨front, last, hlogs, hnodup, hkeep⟩
  · have hpair : p.pair = (getHashValue i.1, i.2) := by
      rcases hnew with ⟨hp, -⟩ | ⟨hp, -⟩ <;> rw [Put.pair, hp.key, hp.doc]
    have hfresh : p.pair ∉ (front ++ [last]).flatten.map Put.pair := by
      intro hmem
      obtain ⟨q, hq, hqp⟩ := mem_map.mp hmem
      obtain ⟨j, hj, hjq⟩ := hfrom q hq
      exact hold ⟨j, hj, by rw [hjq, hqp, hpair]⟩
    -- wherever the put went, the puts are the old ones and this one
    have hall : ∀ logs : List (List Put), logs.flatten.Perm (p :: (front ++ [last]).flatten) →
        (logs.flatten.map Put.pair).Nodup ∧
          ∀ q ∈ logs.flatten, ∃ j ∈ done ++ [i], (getHashValue j.1, j.2) = q.pair := by
      intro logs hperm
      refine ⟨(hperm.map Put.pair).nodup_iff.mpr (nodup_cons.mpr ⟨hfresh, hnodup⟩), ?_⟩
      intro q hq
      rcases mem_cons.mp (hperm.mem_iff.mp hq) with rfl | hq
      · exact ⟨i, by simp, hpair.symm⟩
      · exact hkeep q hq
    rcases hnew with ⟨-, hnew⟩ | ⟨-, hnew⟩
    · refine ⟨front, p :: last, hnew, hall _ ?_⟩
      simp only [List.flatten_append, flatten_cons, flatten_nil, append_nil]
      exact perm_middle
    · refine ⟨front ++ [last], [p], hnew, hall _ ?_⟩
      simp only [List.flatten_append, flatten_cons, flatten_nil, append_nil]
      exact (perm_append_singleton p _)

end Index

/-- **COUNTS AGREE WITH QUERIES**: after every run of successful inserts that
never puts a docid under a hash a second time, the count of a value is the
number of docids a query returns for it. -/
theorem dyhash_count_agrees {S : Type} [Zero S] [Add S] (hashmod : Nat) (hpos : 0 < hashmod)
    (hsize : hashmod * docMultipleNum ≤ cellBound) (ins : List (LowData × UInt32))
    (hclean : Along (recorded dyhashStep) CountTerm (dyhashIndexInit hashmod hpos, []) ins)
    (T : DyhashIndex) (hrun : run dyhashStep (dyhashIndexInit hashmod hpos) ins = some T)
    (v : LowData) :
    ∃ (r : Option (RowidList S)) (ds : List UInt32), dyhashIndexQuery T v = some r ∧
      ResultHolds r ds ∧ dyhashIndexCountQuery T v = UInt32.ofNat ds.length := by
  have hrun' : run (recorded dyhashStep) (dyhashIndexInit hashmod hpos, []) ins
      = some (T, ins) := by
    rw [run_recorded, hrun]
    rfl
  have hinit : TermsOnce [] (dyhashIndexInit hashmod hpos) :=
    ⟨[], [], indexLogs_init hashmod hpos hsize, by simp, by simp⟩
  have hinv : TermsOnce (T, ins).2 (T, ins).1 := by
    refine Along.inv_of_run (fun _ s => TermsOnce s.2 s.1) [] ?_ hinit hclean hrun'
    intro _ s i s' _ hs hterm hstep
    obtain ⟨T', hT', rfl⟩ := Option.map_eq_some_iff.mp hstep
    exact hs.step hterm hT'
  obtain ⟨front, last, hlogs, hnodup, -⟩ := hinv
  obtain ⟨r, hquery, hr⟩ := hlogs.query (S := S) v
  refine ⟨r, _, hquery, hr.1, ?_⟩
  rw [hlogs.countQuery v, foldl_mergeDesc_length (hlogs.answers_desc v)
    (answers_nodup T.hashmod_pos v hlogs.putLog hnodup)]

theorem dyhash_count_agrees_two_tables :
    ∃ T, run dyhashStep (dyhashIndexInit 1 (by decide))
        [(tinyValue 5, 3), (tinyValue 5, 3), (tinyValue 5, 4), (tinyValue 5, 6)] = some T ∧
      ∃ (r : Option (RowidList Nat)) (ds : List UInt32), dyhashIndexQuery T (tinyValue 5) = some r ∧
        ResultHolds r ds ∧ dyhashIndexCountQuery T (tinyValue 5) = UInt32.ofNat ds.length := by
  obtain ⟨T, hT⟩ := Option.isSome_iff_exists.mp
    (show (run dyhashStep (dyhashIndexInit 1 (by decide))
      [(tinyValue 5, 3), (tinyValue 5, 3), (tinyValue 5, 4), (tinyValue 5, 6)]).isSome = true
        by decide)
  exact ⟨T, hT, dyhash_count_agrees (S := Nat) 1 (by decide) (by decide) _ (by decide +kernel) T hT
    (tinyValue 5)⟩

/-- A table with two cells: the term repeated for the second docid goes to a
new table, which has not seen it. -/
theorem repeated_term_counted_twice :
    ∃ (T : DyhashIndex) (r : RowidList Nat),
      run dyhashStep (dyhashIndexInit 1 (by decide))
        [(tinyValue 5, 0), (tinyValue 5, 1), (tinyValue 5, 1)] = some T ∧
      dyhashIndexQuery T (tinyValue 5) = some (some r) ∧ r.rowidNum = 2 ∧
      dyhashIndexCountQuery T (tinyValue 5) = 3 :=
  ⟨_, _, rfl, rfl, rfl, rfl⟩

end Mile.DocDb
