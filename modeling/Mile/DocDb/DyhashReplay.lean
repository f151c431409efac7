/-
  Mile.DocDb.DyhashReplay
  ───────────────────────
  **RECOVERY OF THE DYNAMIC HASH INDEX IS PREFIX REPLAY.**

  Docids do not go down, so the inserts below a docid `d` are a prefix of the run, and recovery
  cuts each table on its own (`PutLog.recover`).
-/
import Mile.DocDb.DyhashRecover

namespace Mile.DocDb

open Lib Common List

/-! ## §1. Recovery of the chain of tables. -/

section Recover

variable {T T' : DyhashIndex} {front base : List (List Put)} {last : List Put} {d : UInt32}
  {hashmod : Nat} {hpos : 0 < hashmod}

/-- The log is `old` with puts from `d` on in front of it. -/
def CutTo (hashmod : Nat) (d : UInt32) (log old : List Put) : Prop :=
  PutLog hashmod old ∧ (∀ p ∈ old, p.doc < d) ∧ ∃ new, log = new ++ old ∧ ∀ p ∈ new, d ≤ p.doc

theorem HasLog.recover {t : DyhashSingleIndex} {log old : List Put}
    (h : HasLog hashmod hpos t log) (hcut : CutTo hashmod d log old) :
    ∃ t', t.recover d = some t' ∧ HasLog hashmod hpos t' old := by
  obtain ⟨hlog, index, rfl⟩ := h
  obtain ⟨hold, hlt, new, rfl, hnew⟩ := hcut
  exact ⟨_, hlog.recover hold hnew hlt, hold, index, rfl⟩

theorem mapM_recover {ts : List DyhashSingleIndex} {logs : List (List Put)}
    (h : Forall₂ (HasLog hashmod hpos) ts logs) : ∀ {olds : List (List Put)},
      Forall₂ (CutTo hashmod d) logs olds →
      ∃ ts', ts.mapM (fun t : DyhashSingleIndex => t.recover d) = some ts' ∧
        Forall₂ (HasLog hashmod hpos) ts' olds := by
  induction h with
  | nil =>
    intro olds hcut
    cases hcut
    exact ⟨[], rfl, Forall₂.nil⟩
  | cons ht _ ih =>
    intro olds hcut
    cases hcut with
    | cons hold holds =>
      obtain ⟨t', hrec, ht'⟩ := ht.recover hold
      obtain ⟨ts', hrecs, hts'⟩ := ih holds
      refine ⟨t' :: ts', ?_, Forall₂.cons ht' hts'⟩
      rw [mapM_cons, hrec, hrecs]
      rfl

/-- Recovery cuts the puts of every table. -/
theorem IndexLogs.recover {olds : List (List Put)} (h : IndexLogs T front last)
    (hcut : Forall₂ (CutTo T.hashmod d) (front ++ [last]) olds) :
    ∃ R front' last', dyhashIndexRecover T d = some R ∧ R.hashmod = T.hashmod ∧
      IndexLogs R front' last' ∧ front' ++ [last'] = olds := by
  -- the last table apart from those in front of it
  rw [← forall₂_reverse_iff, reverse_append, reverse_singleton,
    singleton_append, forall₂_cons_left_iff] at hcut
  obtain ⟨old, fronts, hlast, hfront, holds⟩ := hcut
  rw [← reverse_reverse fronts, forall₂_reverse_iff] at hfront
  obtain ⟨ts, hts, hlogs⟩ := mapM_recover h.front hfront
  obtain ⟨t, ht, hlog⟩ := h.tail.recover hlast
  refine ⟨{ T with front := ts, tail := t }, fronts.reverse, old, ?_, rfl,
    ⟨h.size, hlogs, hlog⟩, ?_⟩
  · unfold dyhashIndexRecover
    rw [hts, ht]
    rfl
  · rw [← reverse_reverse olds, holds, reverse_cons]

/-- The puts after inserts from `d` on: some at the table that was the last
one, and those of new tables. -/
structure Grown (d : UInt32) (front₀ : List (List Put)) (last₀ : List Put)
    (logs : List (List Put)) : Prop where
  split : ∃ new later, logs = front₀ ++ (new ++ last₀) :: later ∧ (∀ p ∈ new, d ≤ p.doc) ∧
    ∀ log ∈ later, ∀ p ∈ log, d ≤ p.doc

theorem Grown.refl (d : UInt32) (front₀ : List (List Put)) (last₀ : List Put) :
    Grown d front₀ last₀ (front₀ ++ [last₀]) :=
  ⟨[], [], rfl, forall_mem_nil _, forall_mem_nil _⟩

variable {front₀ : List (List Put)} {last₀ : List Put}

/-- A put goes to the last table or opens a new one. -/
theorem Grown.step {p : Put} (h : Grown d front₀ last₀ (front ++ [last])) (hp : d ≤ p.doc) :
    Grown d front₀ last₀ (front ++ [p :: last]) ∧
      Grown d front₀ last₀ ((front ++ [last]) ++ [[p]]) := by
  obtain ⟨new, later, hlogs, hnew, hlater⟩ := h
  constructor
  · rcases eq_nil_or_concat later with rfl | ⟨later, log, rfl⟩
    · obtain ⟨rfl, hlast⟩ := append_inj' hlogs rfl
      obtain rfl : last = new ++ last₀ := by simpa using hlast
      exact ⟨p :: new, [], rfl, forall_mem_cons.mpr ⟨hp, hnew⟩, hlater⟩
    · rw [concat_eq_append, ← cons_append, ← append_assoc] at hlogs
      obtain ⟨rfl, hlast⟩ := append_inj' hlogs rfl
      obtain rfl : last = log := by simpa using hlast
      refine ⟨new, later ++ [p :: last], by simp, hnew, fun l hl => ?_⟩
      rcases mem_append.mp hl with hl | hl
      · exact hlater l (by simp [hl])
      · rw [mem_singleton.mp hl]
        exact forall_mem_cons.mpr ⟨hp, hlater last (by simp)⟩
  · refine ⟨new, later ++ [[p]], by rw [hlogs]; simp, hnew, fun l hl => ?_⟩
    rcases mem_append.mp hl with hl | hl
    · exact hlater l hl
    · rw [mem_singleton.mp hl]
      exact fun q hq => by rw [mem_singleton.mp hq]; exact hp

theorem dyhashStep_hashmod {i : LowData × UInt32} (hstep : dyhashStep T i = some T') :
    T'.hashmod = T.hashmod := by
  obtain ⟨-, ⟨t, -, rfl⟩ | ⟨t₀, t, index, -, -, rfl⟩⟩ := dyhashStep_cases hstep
  · rfl
  · rfl

theorem IndexLogs.grow {T₀ : DyhashIndex}
    (h₀ : IndexLogs T₀ front₀ last₀) (post : List (LowData × UInt32))
    (hpost : ∀ i ∈ post, getHashValue i.1 ≠ 0 ∧ d ≤ i.2)
    (hrun : Lib.run dyhashStep T₀ post = some T) :
    T.hashmod = T₀.hashmod ∧
      ∃ front last, IndexLogs T front last ∧ Grown d front₀ last₀ (front ++ [last]) := by
  refine Along.inv_of_run (fun _ T => T.hashmod = T₀.hashmod ∧ ∃ front last,
    IndexLogs T front last ∧ Grown d front₀ last₀ (front ++ [last])) [] ?_
    ⟨rfl, front₀, last₀, h₀, Grown.refl d front₀ last₀⟩ (along_of_forall T₀ hpost) hrun
  rintro _ T i T' - ⟨hmod, front, last, hlogs, hgrown⟩ ⟨hk, hd⟩ hstep
  refine ⟨(dyhashStep_hashmod hstep).trans hmod, ?_⟩
  rcases hlogs.step hk hstep with ⟨rfl, -⟩ | ⟨p, ⟨hp, hnew⟩ | ⟨hp, hnew⟩⟩
  · exact ⟨front, last, hlogs, hgrown⟩
  · exact ⟨front, p :: last, hnew, (hgrown.step (hp.doc ▸ hd)).1⟩
  · exact ⟨front ++ [last], [p], hnew, (hgrown.step (hp.doc ▸ hd)).2⟩

/-- **Recovery after inserts from `d` on** gives the puts before them back,
followed by empty tables. -/
theorem recover_base {T₀ : DyhashIndex}
    (h₀ : IndexLogs T₀ front₀ last₀) (hbelow : ∀ log ∈ front₀ ++ [last₀], ∀ p ∈ log, p.doc < d)
    (hmod : T.hashmod = T₀.hashmod) (h : IndexLogs T front last)
    (hgrown : Grown d front₀ last₀ (front ++ [last])) :
    ∃ R front' last' n, dyhashIndexRecover T d = some R ∧ R.hashmod = T₀.hashmod ∧
      IndexLogs R front' last' ∧
      front' ++ [last'] = (front₀ ++ [last₀]) ++ replicate n [] := by
  obtain ⟨new, later, hlogs, hnew, hlater⟩ := hgrown
  have hputs := h₀.putLog
  have hcut : Forall₂ (CutTo T.hashmod d) (front ++ [last])
      ((front₀ ++ [last₀]) ++ replicate later.length []) := by
    rw [hlogs, hmod, append_assoc, singleton_append]
    refine rel_append (forall₂_same.mpr fun log hlog => ?_)
      (Forall₂.cons ?_ ?_)
    · exact ⟨hputs log (mem_append_left _ hlog), hbelow log (mem_append_left _ hlog),
        [], rfl, forall_mem_nil _⟩
    · exact ⟨hputs last₀ (by simp), hbelow last₀ (by simp), new, rfl, hnew⟩
    · rw [← map_const', forall₂_map_right_iff, forall₂_same]
      exact fun log hlog => ⟨putLog_nil h₀.size, forall_mem_nil _, log,
        (append_nil log).symm, hlater log hlog⟩
  obtain ⟨R, front', last', hrec, hR, hlogs', heq⟩ := h.recover hcut
  exact ⟨R, front', last', later.length, hrec, hR.trans hmod, hlogs', heq⟩

end Recover

/-! ## §2. Empty tables do not matter. -/

section Empty

variable {T T' : DyhashIndex} {front front' : List (List Put)} {last last' : List Put}

theorem answerOf_nil (hashmod : Nat) (v : LowData) : answerOf hashmod [] v = [] := by
  unfold answerOf
  split
  · rfl
  · split
    · rfl
    · rfl

theorem answersOf_empty (hashmod : Nat) (logs : List (List Put)) (n : Nat) (v : LowData) :
    (answersOf hashmod (logs ++ replicate n []) v).flatten
      = (answersOf hashmod logs v).flatten := by
  unfold answersOf
  rw [map_append, map_replicate, answerOf_nil, List.flatten_append]
  simp

variable {S : Type}

theorem tableOf_query_index {hashmod : Nat} {hpos : 0 < hashmod} (index : UInt16) (log : List Put)
    (v : LowData) : (tableOf hashmod hpos index log).query (S := S) v
      = (tableOf hashmod hpos 0 log).query v := by
  have hsame : ∀ log, tableOf hashmod hpos index log
      = { tableOf hashmod hpos 0 log with index := index } := by
    intro log
    induction log with
    | nil => rfl
    | cons p log ih =>
      rw [tableOf, ih]
      rfl
  rw [hsame]
  rfl

theorem map_query {hashmod : Nat} {hpos : 0 < hashmod} {ts : List DyhashSingleIndex}
    {logs : List (List Put)} (h : Forall₂ (HasLog hashmod hpos) ts logs) (v : LowData) :
    (ts.map fun t => t.query (S := S) v)
      = logs.map fun log => (tableOf hashmod hpos 0 log).query v := by
  induction h with
  | nil => rfl
  | cons ht _ ih =>
    obtain ⟨-, index, rfl⟩ := ht
    rw [map_cons, map_cons, ih, tableOf_query_index]

theorem Answered.union_none [Zero S] [Add S] {r : Option (RowidList S)} {ds : List UInt32}
    (h : Answered r ds) : rowidUnion r none = some r := by
  cases r with
  | none => rfl
  | some l =>
    have hholds : Holds l ds := h.1
    have hne : l.rowidNum ≠ 0 := by
      intro h0
      rw [hholds.num, length_eq_zero_iff] at h0
      cases h.2 h0
    show some (if l.rowidNum = 0 then none else some l) = _
    rw [if_neg hne]

/-- **An index with more tables, which are empty, has the same answers.** -/
theorem query_of_empty [Zero S] [Add S] (hmod : T'.hashmod = T.hashmod) (h : IndexLogs T front last)
    (h' : IndexLogs T' front' last') {n : Nat}
    (hlogs : front' ++ [last'] = (front ++ [last]) ++ replicate n []) (v : LowData) :
    dyhashIndexQuery (S := S) T' v = dyhashIndexQuery T v ∧
      dyhashIndexCountQuery T' v = dyhashIndexCountQuery T v := by
  constructor
  · obtain ⟨r, hquery, hr⟩ := h.query (S := S) v
    have htables' : Forall₂ (HasLog T.hashmod T.hashmod_pos) (T'.front ++ [T'.tail])
        (front' ++ [last']) := by
      have htables := h'.tables
      obtain ⟨m, hm, f, t⟩ := T'
      cases hmod
      exact htables
    have hfold : ∀ ts : List DyhashSingleIndex, ts.foldl (fun result t => result.bind fun l =>
          (t.query v).bind fun temp => rowidUnion l temp) (some none)
        = (ts.map fun t => t.query (S := S) v).foldl (fun result q => result.bind fun l =>
          q.bind fun temp => rowidUnion l temp) (some none) := by
      intro ts
      rw [foldl_map]
    -- each empty table answers with no list
    have hrest : ∀ n, (replicate n (some (none : Option (RowidList S)))).foldl
        (fun result q => result.bind fun l => q.bind fun temp => rowidUnion l temp) (some r)
          = some r := by
      intro n
      induction n with
      | zero => rfl
      | succ n ih =>
        rw [replicate_succ, foldl_cons, Option.bind_some, Option.bind_some, hr.union_none]
        exact ih
    have hempty : (tableOf T.hashmod T.hashmod_pos 0 []).query (S := S) v = some none := by
      obtain ⟨q, hq, hans⟩ := (putLog_nil h.size).query (S := S) v
      rw [hq, hans.2 (answerOf_nil _ v)]
    rw [hquery]
    unfold dyhashIndexQuery at hquery ⊢
    rw [hfold, map_query h.tables] at hquery
    rw [hfold, map_query htables', hlogs, map_append, foldl_append, hquery, map_replicate, hempty]
    exact hrest n
  · rw [h.countQuery, h'.countQuery, hlogs, hmod, answersOf_empty]

end Empty

/-! ## §3. Further inserts. -/

/-- The docids inserted under the hash of a value, each once, going down. -/
def NewDocs (done : List (LowData × UInt32)) (v : LowData) (new : List UInt32) : Prop :=
  new.Pairwise (· > ·) ∧
    ∀ e, e ∈ new ↔ v.len ≠ 0 ∧ ∃ i ∈ done, getHashValue i.1 = getHashValue v ∧ i.2 = e

/-- The next insert stays within the reach of queries, and puts no docid under
a hash a second time. -/
abbrev FurtherTerm (s : DyhashIndex × List (LowData × UInt32)) (i : LowData × UInt32) : Prop :=
  CleanTerm s.1 i ∧ CountTerm s i

/-- The index after further inserts `done` from `d` on: its answers are those
of the tables with the puts `base`, all below `d`, and the docids of `done`. -/
structure Continued (hashmod : Nat) (d : UInt32) (base : List (List Put))
    (done : List (LowData × UInt32)) (T : DyhashIndex) : Prop where
  hashmod_eq : T.hashmod = hashmod
  logs : ∃ front last, IndexLogs T front last ∧
    (∀ p ∈ (front ++ [last]).flatten, p.doc < d ∨ ∃ i ∈ done, (getHashValue i.1, i.2) = p.pair) ∧
    ∀ v, ∃ new, NewDocs done v new ∧
      (answersOf hashmod (front ++ [last]) v).flatten.Perm
        (new ++ (answersOf hashmod base v).flatten)

section Further

variable {T T' : DyhashIndex} {front base : List (List Put)} {last : List Put} {d : UInt32}
  {hashmod : Nat} {done : List (LowData × UInt32)} {i : LowData × UInt32} {v : LowData}
  {new : List UInt32}

theorem NewDocs.repeated (h : NewDocs done v new)
    (hold : ∃ j ∈ done, (getHashValue j.1, j.2) = (getHashValue i.1, i.2)) :
    NewDocs (done ++ [i]) v new := by
  refine ⟨h.1, fun e => ?_⟩
  rw [h.2 e]
  refine and_congr_right fun _ => ⟨fun ⟨j, hj, hje⟩ => ⟨j, by simp [hj], hje⟩, ?_⟩
  rintro ⟨j, hj, hje⟩
  rcases mem_append.mp hj with hj | hj
  · exact ⟨j, hj, hje⟩
  · obtain ⟨j', hj', hpair⟩ := hold
    rw [mem_singleton.mp hj] at hje
    obtain ⟨hhash, hdoc⟩ := Prod.mk.inj hpair
    exact ⟨j', hj', hhash.trans hje.1, hdoc.trans hje.2⟩

/-- A new pair adds its docid in front. -/
theorem NewDocs.fresh (h : NewDocs done v new) (hle : ∀ j ∈ done, j.2 ≤ i.2)
    (hnew : ¬ ∃ j ∈ done, (getHashValue j.1, j.2) = (getHashValue i.1, i.2)) :
    NewDocs (done ++ [i]) v
      (if v.len ≠ 0 ∧ getHashValue v = getHashValue i.1 then i.2 :: new else new) := by
  split
  · rename_i hv
    refine ⟨pairwise_cons.mpr ⟨fun e he => ?_, h.1⟩, fun e => ?_⟩
    · obtain ⟨-, j, hj, hhash, rfl⟩ := (h.2 e).mp he
      refine UInt32.lt_of_le_of_ne (hle j hj) fun heq => hnew ⟨j, hj, ?_⟩
      rw [hhash, hv.2, heq]
    · rw [mem_cons, h.2 e]
      constructor
      · rintro (rfl | ⟨hlen, j, hj, hje⟩)
        · exact ⟨hv.1, i, by simp, hv.2.symm, rfl⟩
        · exact ⟨hlen, j, by simp [hj], hje⟩
      · rintro ⟨hlen, j, hj, hje⟩
        rcases mem_append.mp hj with hj | hj
        · exact .inr ⟨hlen, j, hj, hje⟩
        · rw [mem_singleton.mp hj] at hje
          exact .inl hje.2.symm
  · rename_i hv
    refine ⟨h.1, fun e => ?_⟩
    rw [h.2 e]
    refine and_congr_right fun hlen => ⟨fun ⟨j, hj, hje⟩ => ⟨j, by simp [hj], hje⟩, ?_⟩
    rintro ⟨j, hj, hje⟩
    rcases mem_append.mp hj with hj | hj
    · exact ⟨j, hj, hje⟩
    · rw [mem_singleton.mp hj] at hje
      exact absurd ⟨hlen, hje.1.symm⟩ hv

theorem NewPut.reach {p : Put} {k : UInt64} {e : UInt32} (h : IndexLogs T front last)
    (hp : NewPut T.hashmod last k e p) (hreach : Reachable T.tail k) :
    findSlot T.hashmod 0 (homeOf T.hashmod) (keyAt last) (docMultipleNum + 1) k
      = some p.slot := by
  obtain ⟨hlog, index, htail⟩ := h.tail
  have hroom : T.tail.doclist.curOffset < T.tail.doclist.rowLimit := by
    rw [htail, tableOf_curOffset hlog.length_le_cellBound, tableOf_rowLimit]
    exact hp.room
  have hfind : T.tail.find conflictRetryNum k = some p.slot := by
    rw [htail, tableOf_find]
    exact hp.find
  have hnear := find_reach hreach hroom hfind
  rw [htail, tableOf_find] at hnear
  exact hnear

theorem NewPut.reach_new {p : Put} {k : UInt64} {e : UInt32} (hpos : 0 < hashmod)
    (hp : NewPut hashmod [] k e p) :
    findSlot hashmod 0 (homeOf hashmod) (keyAt []) (docMultipleNum + 1) k = some p.slot := by
  have hsome : (findSlot hashmod 0 (homeOf hashmod) (keyAt []) (docMultipleNum + 1) k).isSome
      = true := (findSlot_isSome_iff (homeOf_lt_hashmod hpos)).mpr ⟨0, by decide, .inl rfl⟩
  obtain ⟨s, hs⟩ := Option.isSome_iff_exists.mp hsome
  have hmono := findSlot_mono (homeOf_lt_hashmod hpos)
    (show docMultipleNum + 1 ≤ conflictRetryNum + 1 by decide) hs
  rw [hp.find] at hmono
  rw [hs, hmono]

/-- The step lemma of the run behind recovery. -/
theorem Continued.step (h : Continued hashmod d base done T) (hterm : FurtherTerm (T, done) i)
    (hd : d ≤ i.2) (hle : ∀ j ∈ done, j.2 ≤ i.2) (hstep : dyhashStep T i = some T') :
    Continued hashmod d base (done ++ [i]) T' := by
  obtain ⟨rfl, front, last, hlogs, hfrom, hans⟩ := h
  obtain ⟨⟨hk, hreach⟩, -, hrepeat⟩ := hterm
  have hmod := dyhashStep_hashmod hstep
  have hkeep : ∀ p ∈ (front ++ [last]).flatten,
      p.doc < d ∨ ∃ j ∈ done ++ [i], (getHashValue j.1, j.2) = p.pair := by
    intro p hp
    refine (hfrom p hp).imp_right fun ⟨j, hj, hpair⟩ => ?_
    exact ⟨j, mem_append_left _ hj, hpair⟩
  by_cases hold : ∃ j ∈ done, (getHashValue j.1, j.2) = (getHashValue i.1, i.2)
  · -- inserted before: the last table refuses it
    rw [(hrepeat hold).step hstep]
    refine ⟨rfl, front, last, hlogs, hkeep, fun v => ?_⟩
    obtain ⟨new, hnew, hperm⟩ := hans v
    exact ⟨new, hnew.repeated hold, hperm⟩
  rcases hlogs.step hk hstep with ⟨-, q, hq, hqk, hqd⟩ | ⟨p, hput⟩
  · -- a docid not smaller under this hash is neither from before `d` nor new
    exfalso
    rcases hfrom q (by simp [hq]) with hlt | ⟨j, hj, hpair⟩
    · exact absurd (UInt32.lt_of_le_of_lt (UInt32.le_trans hd hqd) hlt) (UInt32.lt_irrefl _)
    · obtain ⟨hjk, hjd⟩ := Prod.mk.inj hpair
      refine hold ⟨j, hj, ?_⟩
      rw [hjk, hqk, hjd, UInt32.le_antisymm (hjd ▸ hle j hj) hqd]
  · have hpair : p.pair = (getHashValue i.1, i.2) := by
      rcases hput with ⟨hp, -⟩ | ⟨hp, -⟩ <;> rw [Put.pair, hp.key, hp.doc]
    have hadd : ∀ q ∈ p :: (front ++ [last]).flatten,
        q.doc < d ∨ ∃ j ∈ done ++ [i], (getHashValue j.1, j.2) = q.pair := by
      refine forall_mem_cons.mpr ⟨.inr ⟨i, by simp, hpair.symm⟩, hkeep⟩
    -- the answers are those before, and the docid for its hash
    have hall : ∀ front' last', IndexLogs T' front' last' →
        (∀ q ∈ (front' ++ [last']).flatten, q ∈ p :: (front ++ [last]).flatten) →
        (∀ v, (answersOf T.hashmod (front' ++ [last']) v).flatten.Perm
          ((if v.len ≠ 0 ∧ getHashValue v = getHashValue i.1 then [i.2] else []) ++
            (answersOf T.hashmod (front ++ [last]) v).flatten)) →
        Continued T.hashmod d base (done ++ [i]) T' := by
      intro front' last' hlogs' hmem hperm'
      refine ⟨hmod, front', last', hlogs', fun q hq => hadd q (hmem q hq), fun v => ?_⟩
      obtain ⟨new, hnew, hperm⟩ := hans v
      refine ⟨_, hnew.fresh hle hold, (hperm' v).trans ?_⟩
      split
      · exact Perm.cons _ hperm
      · exact hperm
    rcases hput with ⟨hp, hlogs'⟩ | ⟨hp, hlogs'⟩
    · refine hall _ _ hlogs' (fun q hq => ?_) fun v => ?_
      · simp only [List.flatten_append, flatten_cons, flatten_nil, append_nil,
          mem_append, mem_cons] at hq ⊢
        tauto
      · have hanswer := hp.answer (hlogs.putLog last (by simp)) T.hashmod_pos hk
          (hp.reach hlogs hreach) v
        simp only [answersOf, map_append, map_cons, map_nil, List.flatten_append,
          flatten_cons, flatten_nil, append_nil, hanswer]
        split
        · exact perm_middle
        · exact Perm.refl _
    · refine hall _ _ hlogs' (fun q hq => ?_) fun v => ?_
      · simp only [List.flatten_append, flatten_cons, flatten_nil, append_nil,
          mem_append, mem_cons, not_mem_nil, or_false] at hq ⊢
        tauto
      · have hanswer := hp.answer (putLog_nil hlogs.size) T.hashmod_pos hk
          (hp.reach_new T.hashmod_pos) v
        rw [answerOf_nil] at hanswer
        simp only [answersOf, map_append, map_cons, map_nil, List.flatten_append,
          flatten_cons, flatten_nil, append_nil, hanswer]
        exact perm_append_comm

/-- The run lemma behind recovery. -/
theorem Continued.run (h : Continued hashmod d base [] T) (more : List (LowData × UInt32))
    (hsorted : (more.map Prod.snd).Pairwise (· ≤ ·)) (hd : ∀ i ∈ more, d ≤ i.2)
    (hterms : Along (recorded dyhashStep) FurtherTerm (T, []) more)
    (hrun : Lib.run dyhashStep T more = some T') : Continued hashmod d base more T' := by
  have hrun' : Lib.run (recorded dyhashStep) (T, []) more = some (T', more) := by
    rw [run_recorded, hrun]
    rfl
  have hinv : (T', more).2 = [] ++ more ∧ Continued hashmod d base (T', more).2 (T', more).1 := by
    refine Along.inv_of_run (fun done s => s.2 = done ∧ Continued hashmod d base s.2 s.1) [] ?_
      ⟨rfl, h⟩ hterms hrun'
    rintro done ⟨U, past⟩ i s' hpre ⟨rfl, hs⟩ hterm hstep
    obtain ⟨U', hU', rfl⟩ := Option.map_eq_some_iff.mp hstep
    rw [nil_append] at hpre
    have hsorted' := hsorted.sublist (hpre.sublist.map Prod.snd)
    rw [map_append, pairwise_append] at hsorted'
    exact ⟨rfl, hs.step hterm (hd i (hpre.subset (by simp)))
      (fun j hj => hsorted'.2.2 j.2 (mem_map_of_mem hj) i.2 (by simp)) hU'⟩
  exact hinv.2

end Further

/-! ## §4. Replay. -/

/-- Every run is a run of puts. -/
theorem indexLogs_of_run {hashmod : Nat} {hpos : 0 < hashmod}
    (hsize : hashmod * docMultipleNum ≤ cellBound) {ins : List (LowData × UInt32)}
    (hk : ∀ i ∈ ins, getHashValue i.1 ≠ 0) {T : DyhashIndex}
    (hrun : run dyhashStep (dyhashIndexInit hashmod hpos) ins = some T) :
    ∃ front last, IndexLogs T front last ∧
      ∀ p ∈ (front ++ [last]).flatten, ∃ i ∈ ins, i.2 = p.doc := by
  have hinv := Along.inv_of_run (fun done T => ∃ front last, IndexLogs T front last ∧
    ∀ p ∈ (front ++ [last]).flatten, ∃ i ∈ done, i.2 = p.doc) [] ?_
    ⟨[], [], indexLogs_init hashmod hpos hsize, by simp⟩ (along_of_forall _ hk) hrun
  · rwa [nil_append] at hinv
  rintro done T i T' - ⟨front, last, hlogs, hfrom⟩ hk hstep
  have hkeep : ∀ p ∈ (front ++ [last]).flatten, ∃ j ∈ done ++ [i], j.2 = p.doc := fun p hp =>
    let ⟨j, hj, hdoc⟩ := hfrom p hp
    ⟨j, mem_append_left _ hj, hdoc⟩
  rcases hlogs.step hk hstep with ⟨rfl, -⟩ | ⟨p, ⟨hp, hnew⟩ | ⟨hp, hnew⟩⟩
  · exact ⟨front, last, hlogs, hkeep⟩
  · refine ⟨front, p :: last, hnew, fun q hq => ?_⟩
    simp only [List.flatten_append, flatten_cons, flatten_nil, append_nil,
      mem_append, mem_cons] at hq
    rcases hq with hq | rfl | hq
    · exact hkeep q (by simp [hq])
    · exact ⟨i, by simp, hp.doc.symm⟩
    · exact hkeep q (by simp [hq])
  · refine ⟨front ++ [last], [p], hnew, fun q hq => ?_⟩
    rw [List.flatten_append, mem_append] at hq
    rcases hq with hq | hq
    · exact hkeep q hq
    · obtain rfl : q = p := by simpa using hq
      exact ⟨i, by simp, hp.doc.symm⟩

/-- New docids come in front of the older answers. -/
theorem united_append {answers base : List (List UInt32)} {new : List UInt32}
    (hnew : new.Pairwise (· > ·)) (hanswers : ∀ ds ∈ answers, ds.Pairwise (· > ·))
    (hbase : ∀ ds ∈ base, ds.Pairwise (· > ·)) (hperm : answers.flatten.Perm (new ++ base.flatten))
    (hlt : ∀ a ∈ new, ∀ b ∈ base.flatten, a > b) :
    answers.foldl mergeDesc [] = new ++ base.foldl mergeDesc [] := by
  obtain ⟨hdesc, hmem⟩ := foldl_mergeDesc Pairwise.nil hanswers
  obtain ⟨hdesc₀, hmem₀⟩ := foldl_mergeDesc Pairwise.nil hbase
  have hflat : ∀ (as : List (List UInt32)) (e : UInt32),
      (e ∈ [] ∨ ∃ ds ∈ as, e ∈ ds) ↔ e ∈ as.flatten := by
    intro as e
    rw [mem_flatten]
    simp
  have hboth : (new ++ base.foldl mergeDesc []).Pairwise (· > ·) := by
    refine pairwise_append.mpr ⟨hnew, hdesc₀, fun a ha b hb => ?_⟩
    exact hlt a ha b ((hflat base b).mp ((hmem₀ b).mp hb))
  have hnodup : ∀ {l : List UInt32}, l.Pairwise (· > ·) → l.Nodup := fun h =>
    h.imp fun h => (UInt32.ne_of_lt h).symm
  -- both go down and have the same members
  refine Perm.eq_of_pairwise (fun a b _ _ hab hba => ?_) hdesc hboth
    ((perm_ext_iff_of_nodup (hnodup hdesc) (hnodup hboth)).mpr fun e => ?_)
  · exact absurd (UInt32.lt_trans hab hba) (UInt32.lt_irrefl _)
  · rw [hmem e, hflat, hperm.mem_iff, mem_append, mem_append, hmem₀ e, hflat]

/-- **RECOVERY IS PREFIX REPLAY**: when no value hashes to 0, the recovered
index answers every query and count as the index that only received the
inserts below the cut; further inserts from the cut on, within the reach of
queries and each term once, add their docids in front of these answers. -/
theorem dyhash_recover_replays {S : Type} [Zero S] [Add S] (hashmod : Nat) (hpos : 0 < hashmod)
    (hsize : hashmod * docMultipleNum ≤ cellBound) (ins : List (LowData × UInt32))
    (hsorted : (ins.map Prod.snd).Pairwise (· ≤ ·)) (hk : ∀ i ∈ ins, getHashValue i.1 ≠ 0)
    (T : DyhashIndex) (hrun : run dyhashStep (dyhashIndexInit hashmod hpos) ins = some T)
    (d : UInt32) :
    ∃ T₀ R, run dyhashStep (dyhashIndexInit hashmod hpos) (ins.filter (·.2 < d)) = some T₀ ∧
      dyhashIndexRecover T d = some R ∧
      (∀ v, dyhashIndexQuery (S := S) R v = dyhashIndexQuery T₀ v ∧
        dyhashIndexCountQuery R v = dyhashIndexCountQuery T₀ v) ∧
      ∀ more R', (more.map Prod.snd).Pairwise (· ≤ ·) → (∀ i ∈ more, d ≤ i.2) →
        Along (recorded dyhashStep) FurtherTerm (R, []) more →
        run dyhashStep R more = some R' → ∀ v,
        ∃ (r₀ r : Option (RowidList S)) (ds new : List UInt32),
          dyhashIndexQuery T₀ v = some r₀ ∧ ResultHolds r₀ ds ∧ NewDocs more v new ∧
          dyhashIndexQuery R' v = some r ∧ ResultHolds r (new ++ ds) ∧
          dyhashIndexCountQuery R' v = dyhashIndexCountQuery T₀ v + UInt32.ofNat new.length := by
  rw [← sorted_split hsorted d, run_append] at hrun
  obtain ⟨T₀, hrun₀, hpost⟩ := Option.bind_eq_some_iff.mp hrun
  obtain ⟨front₀, last₀, h₀, hfrom⟩ := indexLogs_of_run hsize
    (fun i hi => hk i (mem_filter.mp hi).1) hrun₀
  have hbelow : ∀ p ∈ (front₀ ++ [last₀]).flatten, p.doc < d := by
    intro p hp
    obtain ⟨i, hi, hdoc⟩ := hfrom p hp
    rw [← hdoc]
    simpa using (mem_filter.mp hi).2
  obtain ⟨hmod, front, last, h, hgrown⟩ := h₀.grow (d := d) _ (fun i hi =>
    ⟨hk i (mem_filter.mp hi).1, by simpa using (mem_filter.mp hi).2⟩) hpost
  obtain ⟨R, front', last', n, hrec, hmodR, hR, hlogsR⟩ := recover_base h₀
    (fun log hlog p hp => hbelow p (mem_flatten.mpr ⟨log, hlog, hp⟩)) hmod h hgrown
  refine ⟨T₀, R, hrun₀, hrec, query_of_empty hmodR h₀ hR hlogsR, ?_⟩
  intro more R' hmore hd hterms hrunR v
  have hstart : Continued T₀.hashmod d (front₀ ++ [last₀]) [] R := by
    refine ⟨hmodR, front', last', hR, fun p hp => .inl ?_, fun v =>
      ⟨[], ⟨Pairwise.nil, by simp⟩, ?_⟩⟩
    · rw [hlogsR] at hp
      exact hbelow p (by simpa using hp)
    · rw [hlogsR, answersOf_empty]
      exact Perm.refl _
  obtain ⟨hmodR', front'', last'', hlogs', -, hans⟩ := hstart.run more hmore hd hterms hrunR
  obtain ⟨new, hnew, hperm⟩ := hans v
  obtain ⟨r₀, hquery₀, hr₀⟩ := h₀.query (S := S) v
  obtain ⟨r, hquery, hr⟩ := hlogs'.query (S := S) v
  refine ⟨r₀, r, _, new, hquery₀, hr₀.1, hnew, hquery, ?_, ?_⟩
  · have hdesc := hlogs'.answers_desc v
    rw [hmodR'] at hr hdesc
    rw [← united_append hnew.1 hdesc (h₀.answers_desc v) hperm]
    · exact hr.1
    · intro a ha b hb
      obtain ⟨-, i, hi, -, rfl⟩ := (hnew.2 a).mp ha
      obtain ⟨ds, hds, hbds⟩ := mem_flatten.mp hb
      obtain ⟨log, hlog, rfl⟩ := mem_map.mp hds
      obtain ⟨p, hp, -, rfl⟩ := (h₀.putLog log hlog).mem_answer T₀.hashmod_pos hbds
      exact UInt32.lt_of_lt_of_le (hbelow p (mem_flatten.mpr ⟨log, hlog, hp⟩)) (hd i hi)
  · rw [hlogs'.countQuery, h₀.countQuery, hmodR', hperm.length_eq, length_append,
      UInt32.ofNat_add, UInt32.add_comm]

theorem dyhash_recover_replays_two_tables :
    ∃ T T₀ R R', run dyhashStep (dyhashIndexInit 1 (by decide))
        [(tinyValue 5, 3), (tinyValue 5, 4), (tinyValue 5, 6)] = some T ∧
      run dyhashStep (dyhashIndexInit 1 (by decide)) [(tinyValue 5, 3)] = some T₀ ∧
      dyhashIndexRecover T 4 = some R ∧ run dyhashStep R [(tinyValue 5, 4)] = some R' ∧
      (∀ v, dyhashIndexQuery (S := Nat) R v = dyhashIndexQuery T₀ v ∧
        dyhashIndexCountQuery R v = dyhashIndexCountQuery T₀ v) ∧
      ∃ (r : Option (RowidList Nat)) (ds new : List UInt32),
        NewDocs [(tinyValue 5, 4)] (tinyValue 5) new ∧
        dyhashIndexQuery R' (tinyValue 5) = some r ∧ ResultHolds r (new ++ ds) := by
  obtain ⟨T, hT⟩ := Option.isSome_iff_exists.mp
    (show (run dyhashStep (dyhashIndexInit 1 (by decide))
      [(tinyValue 5, 3), (tinyValue 5, 4), (tinyValue 5, 6)]).isSome = true by decide)
  obtain ⟨T₀, R, hT₀, hR, hanswers, hmore⟩ := dyhash_recover_replays (S := Nat) 1 (by decide)
    (by decide) _ (by decide) (by decide) T hT 4
  have hterms : ((run dyhashStep (dyhashIndexInit 1 (by decide))
      [(tinyValue 5, 3), (tinyValue 5, 4), (tinyValue 5, 6)]).bind (dyhashIndexRecover · 4)).all
        (fun R => decide (Along (recorded dyhashStep) FurtherTerm (R, []) [(tinyValue 5, 4)]))
          = true := by decide +kernel
  have hsome : ((run dyhashStep (dyhashIndexInit 1 (by decide))
      [(tinyValue 5, 3), (tinyValue 5, 4), (tinyValue 5, 6)]).bind (dyhashIndexRecover · 4)).all
        (fun R => (run dyhashStep R [(tinyValue 5, 4)]).isSome) = true := by decide +kernel
  rw [hT, Option.bind_some, hR, Option.all_some] at hterms hsome
  obtain ⟨R', hR'⟩ := Option.isSome_iff_exists.mp hsome
  obtain ⟨-, r, ds, new, -, -, hnew, hquery, hr, -⟩ :=
    hmore _ R' (by decide) (by decide) (of_decide_eq_true hterms) hR' (tinyValue 5)
  exact ⟨T, T₀, R, R', hT, hT₀, hR, hR', hanswers, r, ds, new, hnew, hquery, hr⟩

/-- A value whose hash is 0 at docid 0 and another one at docid 1 share the
bucket; cut back to docid 1, the index answers for the second value with the
docid of the first. -/
theorem recover_keeps_wrong_term :
    ∃ T R T₀, run dyhashStep (dyhashIndexInit 1 (by decide))
        [(lowestValue, 0), (tinyValue 5, 1)] = some T ∧
      dyhashIndexRecover T 1 = some R ∧
      run dyhashStep (dyhashIndexInit 1 (by decide)) [(lowestValue, 0)] = some T₀ ∧
      dyhashIndexQuery (S := Nat) T₀ (tinyValue 5) = some none ∧
      ∃ r : RowidList Nat, dyhashIndexQuery R (tinyValue 5) = some (some r) ∧ r.rowidNum = 1 :=
  ⟨_, _, _, rfl, rfl, rfl, rfl, _, rfl, rfl⟩

end Mile.DocDb
