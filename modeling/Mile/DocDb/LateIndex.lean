/-
  Mile.DocDb.LateIndex
  ────────────────────
  **A LATE INDEX AGAINST AN EARLY ONE.**

  An index that is built while rows are inserted is the one the same inserts give on a table that
  had it from the start, if the inserts stay out of the way of the build (`CleanEvent`).
-/
import Mile.DocDb.BuildIndex

namespace Mile.DocDb

open Lib Common List Function

section Clean

variable {I : Type} (impl : IndexImpl I) (cfg : BuildConfig)

/-! ## §1. Events that do not race. -/

/-- A row may go into row `n` of segment `j`, seen by the index or not, while
the build is at `pc` and `current` is the current segment. -/
def GoodMoment (pc : Pc) (hashed : Bool) (current j n : Nat) : Prop :=
  match pc with
  | .start => True
  | .choose => hashed = false ∧ j = current
  | .ensure sid | .body sid _ | .near sid _ | .locked sid _ =>
    if j = sid then hashed = false else n + 1 < cfg.rowLimit
  | .check sid docid => if j = sid then hashed = false ∨ n < docid else n + 1 < cfg.rowLimit
  | .fin sid i | .finRow sid i _ => hashed = true ∧ (j = sid ∨ n + 1 < cfg.rowLimit ∨ j < i)
  | .publish => hashed = true
  | .done => True

/-- The rows are stored, the row has at most one column of the name, the other
indexes accept it, and the moment is good. -/
abbrev CleanRow (t : BuildTable I) (row : List LowData) (others : OtherIndexes) : Prop :=
  cfg.storeRaw = true ∧ others = .succeed ∧ row.countP (isCol cfg) ≤ 1 ∧
    ∀ t' ∈ prepare impl cfg t,
      GoodMoment cfg t.pc t'.hashed t.current t'.current (t'.segs t'.current).rows.length

def CleanEvent (t : BuildTable I) : BuildEvent → Prop
  | .insert row others => CleanRow impl cfg t row others
  | .del sid docid => t.pc = .done ∨ (t.segs sid).rows.length ≤ docid
  | .build => True

abbrev CleanRun (events : List BuildEvent) : Prop :=
  EachStep (buildEvent impl cfg) (CleanEvent impl cfg) emptyBuildTable events

instance (pc : Pc) (hashed : Bool) (current j n : Nat) :
    Decidable (GoodMoment cfg pc hashed current j n) := by
  unfold GoodMoment
  split <;> infer_instance

instance (t : BuildTable I) (e : BuildEvent) : Decidable (CleanEvent impl cfg t e) := by
  cases e <;> unfold CleanEvent <;> infer_instance

/-! ## §2. The invariant. -/

def BuildSeg.Waiting (s : BuildSeg I) : Prop := s.full = true ∧ s.index = none ∧ s.Live

def BuildSeg.Pending (s : BuildSeg I) : Prop :=
  s.init = true → s.Waiting ∨ (s.full = false ∧ s.Complete impl cfg)

def BuildSeg.Indexed (s : BuildSeg I) : Prop := s.init = true → s.Complete impl cfg

def BuildSeg.Fresh (s : BuildSeg I) : Prop :=
  (s.index = none ∨ s.index = some impl.new) ∧ s.Live

/-- The loop over segment `sid`, whose state is `P`; inserts into another
segment see the index. -/
structure LoopInv (t : BuildTable I) (sid : Nat) (P : Bool → BuildSeg I → Prop) : Prop where
  metaAdded : t.metaAdded = true
  init : (t.segs sid).init = true
  seg : P t.hashed (t.segs sid)
  others : ∀ j ≠ sid, (t.segs j).Pending impl cfg
  seen : t.current = sid ∨ t.hashed = true

/-- The last loop: the segments before `i` are indexed, those from `k` on are
to be reached. -/
structure FinInv (t : BuildTable I) (sid i k : Nat) : Prop where
  metaAdded : t.metaAdded = true
  before : ∀ j, j = sid ∨ j < i → (t.segs j).Indexed impl cfg
  behind : ∀ j ≠ sid, k ≤ j → (t.segs j).Pending impl cfg
  seen : t.current = sid ∨ t.hashed = true

def PhaseInv (t : BuildTable I) : Prop :=
  match t.pc with
  | .start =>
    t.metaAdded = false ∧ t.hashed = false ∧
    (∀ j, (t.segs j).index = none ∧ (t.segs j).Live) ∧
    (∀ j ≠ t.current, (t.segs j).init = true → (t.segs j).full = true) ∧
    (cfg.rowLimit ≤ (t.segs t.current).rows.length → (t.segs t.current).full = true)
  | .choose =>
    t.metaAdded = true ∧ (t.segs t.current).Fresh impl ∧
    ∀ j ≠ t.current, (t.segs j).init = true → (t.segs j).Waiting
  | .ensure sid => LoopInv impl cfg t sid fun _ s => s.Fresh impl
  | .check sid d =>
    LoopInv impl cfg t sid fun h s => s.Upto impl cfg d ∧ (h = false → d ≤ s.rows.length)
  | .body sid d => LoopInv impl cfg t sid fun _ s => s.Upto impl cfg d ∧ d < s.rows.length
  | .near sid d | .locked sid d =>
    LoopInv impl cfg t sid fun _ s => s.Upto impl cfg (d + 1) ∧ d < s.rows.length
  | .fin sid i => FinInv impl cfg t sid i i
  | .finRow sid i d =>
    FinInv impl cfg t sid i (i + 1) ∧ i ≠ sid ∧ (t.segs i).full = true ∧
    (t.segs i).Upto impl cfg d
  | .publish => t.metaAdded = true ∧ ∀ j, (t.segs j).Indexed impl cfg
  | .done => t.metaAdded = true ∧ t.hashed = true ∧ ∀ j, (t.segs j).Indexed impl cfg

/-- What holds in every state: absent segments are empty, `SEGMENT_FULL` means
full, and segments are numbered below `max_segment_num`. -/
structure ShapeInv (t : BuildTable I) : Prop where
  absent : ∀ j, (t.segs j).init = false → t.segs j = absentSeg
  full : ∀ j, (t.segs j).full = true → (t.segs j).rows.length = cfg.rowLimit
  bounded : ∀ j, (t.segs j).init = true → j < cfg.maxSegmentNum
  current_lt : t.current < cfg.maxSegmentNum

/-- What holds along a clean run. -/
structure BuildInv (t : BuildTable I) : Prop extends ShapeInv cfg t where
  phase : PhaseInv impl cfg t

variable {impl cfg} {t : BuildTable I} {j : Nat}

theorem ShapeInv.init_of_full (h : ShapeInv cfg t) (hf : (t.segs j).full = true) :
    (t.segs j).init = true := by
  by_contra hi
  rw [h.absent j (by simpa using hi)] at hf
  cases hf

variable {s : BuildSeg I}

theorem BuildSeg.Waiting.pending (h : s.init = true → s.Waiting) :
    s.Pending impl cfg := fun hi => .inl (h hi)

theorem BuildSeg.Complete.pending (h : s.Complete impl cfg) (hf : s.full = false) :
    s.Pending impl cfg := fun _ => .inr ⟨hf, h⟩

theorem emptyBuildTable_inv : BuildInv impl cfg (emptyBuildTable : BuildTable I) where
  absent := fun _ _ => rfl
  full := fun _ h => by cases h
  bounded := fun _ h => by cases h
  current_lt := cfg.max_pos
  phase := by
    refine ⟨rfl, rfl, ?_, ?_, ?_⟩
    · exact fun _ => ⟨rfl, fun r hr => by cases hr⟩
    · exact fun _ _ h => by cases h
    · intro h
      exact absurd (Nat.le_zero.mp h) cfg.limit.rows_pos.ne'

/-! ## §3. The steps of the build. -/

variable {x : I} {sid : Nat} {P : Bool → BuildSeg I → Prop} {t' : BuildTable I}

/-- One segment is changed. -/
theorem ShapeInv.update (h : ShapeInv cfg t) (hsegs : t'.segs = update t.segs j s)
    (hinit : s.init = true) (hfull : s.full = true → s.rows.length = cfg.rowLimit)
    (hj : j < cfg.maxSegmentNum) (hcur : t'.current < cfg.maxSegmentNum) : ShapeInv cfg t' where
  absent := by
    rw [hsegs]
    refine (forall_update_iff t.segs fun _ s => s.init = false → s = absentSeg).mpr ⟨?_, ?_⟩
    · exact fun hf => absurd (hf ▸ hinit) Bool.false_ne_true
    · exact fun k _ => h.absent k
  full := by
    rw [hsegs]
    exact (forall_update_iff t.segs fun _ s => s.full = true → s.rows.length = cfg.rowLimit).mpr
      ⟨hfull, fun k _ => h.full k⟩
  bounded := by
    rw [hsegs]
    exact (forall_update_iff t.segs fun k s => s.init = true → k < cfg.maxSegmentNum).mpr
      ⟨fun _ => hj, fun k _ => h.bounded k⟩
  current_lt := hcur

theorem ShapeInv.setIndex (h : ShapeInv cfg t) (hinit : (t.segs j).init = true) (pc : Pc)
    (hashed : Bool) :
    ShapeInv cfg { t.setSeg j { t.segs j with index := some x } with
      pc := pc, hashed := hashed } :=
  h.update rfl hinit (h.full j) (h.bounded j hinit) h.current_lt

variable {Q : Bool → BuildSeg I → Prop}

theorem LoopInv.setIndex (h : LoopInv impl cfg t sid P) (pc : Pc) (hashed : Bool)
    (hseen : t.current = sid ∨ hashed = true) (hQ : Q hashed { t.segs sid with index := some x }) :
    LoopInv impl cfg { t.setSeg sid { t.segs sid with index := some x } with
      pc := pc, hashed := hashed } sid Q where
  metaAdded := h.metaAdded
  init := by simp [BuildTable.setSeg, h.init]
  seg := by simpa [BuildTable.setSeg] using hQ
  others := by
    intro j hj
    simp only [BuildTable.setSeg, update_of_ne hj]
    exact h.others j hj
  seen := hseen

theorem LoopInv.mono (h : LoopInv impl cfg t sid P) (pc : Pc)
    (hPQ : P t.hashed (t.segs sid) → Q t.hashed (t.segs sid)) :
    LoopInv impl cfg { t with pc := pc } sid Q :=
  ⟨h.metaAdded, h.init, hPQ h.seg, h.others, h.seen⟩

theorem LoopInv.fin (h : LoopInv impl cfg t sid P) (hc : (t.segs sid).Complete impl cfg) :
    FinInv impl cfg { t with pc := .fin sid 0 } sid 0 0 where
  metaAdded := h.metaAdded
  before := by
    rintro j (rfl | hj)
    · exact fun _ => hc
    · exact absurd hj (Nat.not_lt_zero j)
  behind := fun j hj _ => h.others j hj
  seen := h.seen

theorem FinInv.next {i : Nat} (h : FinInv impl cfg t sid i (i + 1))
    (hi : (t.segs i).Indexed impl cfg) :
    FinInv impl cfg { t with pc := .fin sid (i + 1) } sid (i + 1) (i + 1) where
  metaAdded := h.metaAdded
  before := by
    rintro j (rfl | hj)
    · exact h.before j (.inl rfl)
    · rcases Nat.lt_succ_iff_lt_or_eq.mp hj with hj | rfl
      · exact h.before j (.inr hj)
      · exact hi
  behind := h.behind
  seen := h.seen

theorem FinInv.setIndex {i : Nat} (h : FinInv impl cfg t sid i (i + 1)) (hi : i ≠ sid) (pc : Pc) :
    FinInv impl cfg { t.setSeg i { t.segs i with index := some x } with pc := pc }
      sid i (i + 1) where
  metaAdded := h.metaAdded
  before := by
    intro j hj
    have hne : j ≠ i := by
      rcases hj with rfl | hj
      · exact hi.symm
      · exact hj.ne
    simp only [BuildTable.setSeg, update_of_ne hne]
    exact h.before j hj
  behind := by
    intro j hj hle
    have hne : j ≠ i := by omega
    simp only [BuildTable.setSeg, update_of_ne hne]
    exact h.behind j hj hle
  seen := h.seen

variable (cfg) in
theorem BuildSeg.Fresh.ensure (s : BuildSeg I) (h : s.Fresh impl) :
    ensureSeg impl s = { s with index := some impl.new } ∧
      BuildSeg.Upto impl cfg { s with index := some impl.new } 0 := by
  refine ⟨?_, rfl, h.2⟩
  rcases h.1 with hx | hx <;> simp [ensureSeg, hx]

/-- A step of the builder keeps the invariant. -/
theorem BuildInv.buildStep (h : BuildInv impl cfg t) :
    BuildInv impl cfg (buildStep impl cfg t) := by
  have hph := h.phase
  have hshape : ShapeInv cfg t := h.toShapeInv
  -- a step that only moves on keeps the shape
  have hmove : ∀ (pc : Pc) (m b : Bool),
      ShapeInv cfg { t with pc := pc, metaAdded := m, hashed := b } := fun _ _ _ =>
    ⟨hshape.absent, hshape.full, hshape.bounded, hshape.current_lt⟩
  unfold PhaseInv at hph
  unfold DocDb.buildStep
  cases hpc : t.pc <;> rw [hpc] at hph <;> dsimp only at hph ⊢
  case start =>
    obtain ⟨-, -, hidx, hfull, -⟩ := hph
    refine ⟨hmove _ _ _, rfl, ⟨.inl (hidx _).1, (hidx _).2⟩, ?_⟩
    intro j hj hi
    exact ⟨hfull j hj hi, (hidx j).1, (hidx j).2⟩
  case choose =>
    obtain ⟨hmeta, hfresh, hwait⟩ := hph
    have hpend : ∀ j ≠ t.current, (t.segs j).Pending impl cfg := fun j hj =>
      BuildSeg.Waiting.pending (hwait j hj)
    by_cases hinit : (t.segs t.current).init = true
    · simp only [hinit, if_true]
      exact ⟨hmove _ _ _, ⟨hmeta, hinit, hfresh, hpend, .inl rfl⟩⟩
    · rw [if_neg hinit]
      refine ⟨hmove _ _ _, ⟨hmeta, ?_, fun j hj _ => hpend j hj, .inl rfl⟩⟩
      rintro j (rfl | hj)
      · exact fun hi => absurd hi hinit
      · exact absurd hj (Nat.not_lt_zero j)
  case ensure sid =>
    obtain ⟨heq, hup⟩ := BuildSeg.Fresh.ensure cfg (t.segs sid) hph.seg
    simp only [heq]
    refine ⟨hshape.setIndex hph.init _ _, ?_⟩
    exact hph.setIndex _ _ hph.seen ⟨hup, fun _ => Nat.zero_le _⟩
  case check sid d =>
    by_cases hd : d < (t.segs sid).rows.length
    · simp only [hd, if_true]
      exact ⟨hmove _ _ _, hph.mono _ fun hP => ⟨hP.1, hd⟩⟩
    · simp only [hd, if_false]
      exact ⟨hmove _ _ _, hph.fin (hph.seg.1.complete (Nat.le_of_not_lt hd))⟩
  case body sid d =>
    obtain ⟨hup, hd⟩ := hph.seg
    obtain ⟨x, heq, hup'⟩ := hup.next hd
    simp only [heq]
    exact ⟨hshape.setIndex hph.init _ _, hph.setIndex _ _ hph.seen ⟨hup', hd⟩⟩
  case near sid d =>
    by_cases hnear : sid = t.current ∧ (t.segs sid).rows.length - d < 10
    · rw [if_pos hnear]
      exact ⟨hmove _ _ _, hph.mono _ id⟩
    · rw [if_neg hnear]
      exact ⟨hmove _ _ _, hph.mono _ fun hP => ⟨hP.1, fun _ => hP.2⟩⟩
  case locked sid d =>
    obtain ⟨hup, hd⟩ := hph.seg
    obtain ⟨x, heq, hcomplete⟩ := hup.catchUp hd
    simp only [heq]
    refine ⟨hshape.setIndex hph.init _ _, ?_⟩
    refine hph.setIndex _ _ (.inr rfl) ⟨hcomplete.upto (Nat.le_succ _), ?_⟩
    intro hfalse
    cases hfalse
  case fin sid i =>
    have hnext : FinInv impl cfg t sid i (i + 1) :=
      ⟨hph.metaAdded, hph.before, fun j hj hle => hph.behind j hj (by omega), hph.seen⟩
    by_cases hmax : cfg.maxSegmentNum ≤ i
    · simp only [hmax, if_true]
      refine ⟨hmove _ _ _, hph.metaAdded, ?_⟩
      -- segments behind the last one are not there
      intro j hi
      exact hph.before j (.inr (by have := hshape.bounded j hi; omega)) hi
    · rw [if_neg hmax]
      by_cases hfull : (t.segs i).full = true ∧ i ≠ sid
      · rw [if_pos hfull]
        have hinit := hshape.init_of_full hfull.1
        obtain ⟨-, hnone, hlive⟩ : (t.segs i).Waiting := by
          rcases hph.behind i hfull.2 le_rfl hinit with hw | ⟨hf, -⟩
          · exact hw
          · exact absurd (hf ▸ hfull.1) Bool.false_ne_true
        have hfresh : (t.segs i).Fresh impl := ⟨.inl hnone, hlive⟩
        obtain ⟨heq, hup⟩ := BuildSeg.Fresh.ensure cfg (t.segs i) hfresh
        simp only [heq]
        refine ⟨hshape.setIndex hinit _ _, hnext.setIndex hfull.2 _, hfull.2, ?_, ?_⟩
        · simpa [BuildTable.setSeg] using hfull.1
        · simpa [BuildTable.setSeg] using hup
      · rw [if_neg hfull]
        refine ⟨hmove _ _ _, hnext.next ?_⟩
        intro hinit
        rcases eq_or_ne i sid with rfl | hne
        · exact hph.before i (.inl rfl) hinit
        · rcases hph.behind i hne le_rfl hinit with hw | ⟨-, hc⟩
          · exact absurd ⟨hw.1, hne⟩ hfull
          · exact hc
  case finRow sid i d =>
    obtain ⟨hfin, hne, hfull, hup⟩ := hph
    have hlen := hshape.full i hfull
    by_cases hd : d < cfg.rowLimit
    · rw [if_pos hd]
      obtain ⟨x, heq, hup'⟩ := hup.next (hlen.symm ▸ hd)
      simp only [heq]
      refine ⟨hshape.setIndex (hshape.init_of_full hfull) _ _, hfin.setIndex hne _, hne, ?_, ?_⟩
      · simpa [BuildTable.setSeg] using hfull
      · simpa [BuildTable.setSeg] using hup'
    · rw [if_neg hd]
      exact ⟨hmove _ _ _, hfin.next fun _ => hup.complete (by omega)⟩
  case publish =>
    exact ⟨hmove _ _ _, hph.1, rfl, hph.2⟩
  case done => exact h

/-! ## §4. Inserts between the steps. -/

section Insert

variable {t : BuildTable I} {j : Nat} {base : BuildSeg I} {hashed : Bool} {row : List LowData}
  {s : BuildSeg I} {others : OtherIndexes}

@[simp] theorem addRow_length :
    (addRow impl cfg s hashed row others).rows.length = s.rows.length + 1 := by
  simp [addRow]

theorem addRow_full (h : (addRow impl cfg s hashed row others).full = true) :
    s.full = true ∨ s.rows.length + 1 = cfg.rowLimit := by
  simp only [addRow, Bool.or_eq_true, Bool.and_eq_true, decide_eq_true_eq] at h
  exact h.imp id And.right

theorem freshSeg_complete (hmeta : t.metaAdded = true) : (freshSeg impl t).Complete impl cfg := by
  simp [BuildSeg.Complete, freshSeg, hmeta, rowsIndex, BuildSeg.cols]

namespace Target

variable (h : Target impl cfg t j base hashed)

include h

theorem init : base.init = true := by
  cases h with
  | here hinit => exact hinit
  | first | roll => rfl

theorem room : base.rows.length < cfg.rowLimit := by
  cases h with
  | here _ hroom => exact hroom
  | first | roll => exact cfg.limit.rows_pos

theorem not_full (hs : ShapeInv cfg t) : base.full = false := by
  cases h with
  | here _ hroom =>
    by_contra hf
    have := hs.full t.current (by simpa using hf)
    omega
  | first | roll => rfl

theorem lt (hs : ShapeInv cfg t) : j < cfg.maxSegmentNum := by
  cases h with
  | here | first => exact hs.current_lt
  | roll _ hlt => exact hlt

theorem base_cases : base = t.segs t.current ∨ base = freshSeg impl t := by
  cases h with
  | here => exact .inl rfl
  | first | roll => exact .inr rfl

theorem rolled (hne : t.current ≠ j) : cfg.rowLimit ≤ (t.segs t.current).rows.length := by
  cases h with
  | here | first => exact absurd rfl hne
  | roll _ _ _ hfull => exact hfull

theorem of_init (hinit : (t.segs j).init = true) :
    j = t.current ∧ base = t.segs j ∧ hashed = t.hashed := by
  cases h with
  | here => exact ⟨rfl, rfl, rfl⟩
  | first hfree | roll _ _ _ _ hfree => exact absurd (hfree ▸ hinit) Bool.false_ne_true

theorem ne_of_full (hs : ShapeInv cfg t) {i : Nat} (hfull : (t.segs i).full = true) : j ≠ i := by
  rintro rfl
  obtain ⟨-, hbase, -⟩ := h.of_init (hs.init_of_full hfull)
  have := h.not_full hs
  rw [hbase, hfull] at this
  cases this

theorem complete (hmeta : t.metaAdded = true) (hhere : (t.segs j).Indexed impl cfg) :
    base.Complete impl cfg := by
  cases h with
  | here hinit => exact hhere hinit
  | first | roll => exact freshSeg_complete hmeta

theorem indexed_of_pending (hs : ShapeInv cfg t) (hp : (t.segs j).Pending impl cfg) :
    (t.segs j).Indexed impl cfg := by
  intro hinit
  rcases hp hinit with hw | ⟨-, hc⟩
  · exact absurd rfl (h.ne_of_full hs hw.1)
  · exact hc

theorem hashed_eq (hmeta : t.metaAdded = true) (hseen : j = t.current → t.hashed = true) :
    hashed = true := by
  cases h with
  | here | first => exact hseen rfl
  | roll => simp [hmeta]

end Target

theorem ShapeInv.addRow (hs : ShapeInv cfg t) (h : Target impl cfg t j base hashed)
    (others : OtherIndexes) :
    ShapeInv cfg (targeted t j (addRow impl cfg base hashed row others) hashed) := by
  refine hs.update rfl h.init (fun hk => ?_) (h.lt hs) (h.lt hs)
  rcases addRow_full hk with hf | hf
  · exact absurd (h.not_full hs ▸ hf) Bool.false_ne_true
  · rw [addRow_length, hf]

section Row

variable (hraw : cfg.storeRaw = true) (hcols : row.countP (isCol cfg) ≤ 1)

include hraw hcols

theorem BuildSeg.Complete.addRow_pending (hc : base.Complete impl cfg) (hf : base.full = false)
    (hroom : base.rows.length + 1 < cfg.rowLimit) :
    (DocDb.addRow impl cfg base true row .succeed).Pending impl cfg := by
  refine (hc.addRow hraw hcols).pending ?_
  by_contra hfull
  rcases addRow_full (by simpa using hfull) with h | h
  · exact absurd (hf ▸ h) Bool.false_ne_true
  · omega

/-- An insert during the loop over the rows. -/
theorem LoopInv.addRow (h : LoopInv impl cfg t sid P) (hs : ShapeInv cfg t)
    (ht : Target impl cfg t j base hashed) {G : Prop}
    (hgood : if j = sid then G else base.rows.length + 1 < cfg.rowLimit)
    (hin : G → hashed = t.hashed → base = t.segs sid →
      P t.hashed (DocDb.addRow impl cfg (t.segs sid) t.hashed row .succeed))
    (hmono : P t.hashed (t.segs sid) → P true (t.segs sid)) :
    LoopInv impl cfg (targeted t j (DocDb.addRow impl cfg base hashed row .succeed) hashed)
      sid P := by
  rcases eq_or_ne j sid with rfl | hne
  · -- the row goes into the segment of the loop
    obtain ⟨hcur, rfl, rfl⟩ := ht.of_init h.init
    rw [if_pos rfl] at hgood
    refine ⟨h.metaAdded, ?_, ?_, ?_, .inl rfl⟩
    · simp only [targeted, update_self]
      exact h.init
    · simpa [targeted] using hin hgood rfl rfl
    · intro k hk
      simp only [targeted, update_of_ne hk]
      exact h.others k hk
  · -- it goes into a segment that was begun since
    have hh : hashed = true := ht.hashed_eq h.metaAdded fun hj =>
      h.seen.resolve_left fun hcur => hne (hj.trans hcur)
    subst hh
    rw [if_neg hne] at hgood
    have hc := ht.complete h.metaAdded (ht.indexed_of_pending hs (h.others j hne))
    refine ⟨h.metaAdded, ?_, ?_, ?_, .inr rfl⟩
    · simpa only [targeted, update_of_ne hne.symm] using h.init
    · simpa only [targeted, update_of_ne hne.symm] using hmono h.seg
    · intro k hk
      rcases eq_or_ne k j with rfl | hkj
      · simpa only [targeted, update_self] using
          BuildSeg.Complete.addRow_pending hraw hcols hc (ht.not_full hs) hgood
      · simpa only [targeted, update_of_ne hkj] using h.others k hk

/-- An insert during the last pass. -/
theorem FinInv.addRow {i k : Nat} (h : FinInv impl cfg t sid i k) (hs : ShapeInv cfg t)
    (ht : Target impl cfg t j base true) (hik : i ≤ k) (hj : j = sid ∨ j < i ∨ k ≤ j)
    (hroom : j = sid ∨ base.rows.length + 1 < cfg.rowLimit ∨ j < i) :
    FinInv impl cfg (targeted t j (DocDb.addRow impl cfg base true row .succeed) true)
      sid i k := by
  have hhere : (t.segs j).Indexed impl cfg := by
    rcases eq_or_ne j sid with rfl | hne
    · exact h.before j (.inl rfl)
    · rcases hj with hj | hj | hj
      · exact absurd hj hne
      · exact h.before j (.inr hj)
      · exact ht.indexed_of_pending hs (h.behind j hne hj)
  have hc := ht.complete h.metaAdded hhere
  refine ⟨h.metaAdded, ?_, ?_, .inr rfl⟩
  · intro l hl
    rcases eq_or_ne l j with rfl | hlj
    · simp only [targeted, update_self]
      exact fun _ => hc.addRow hraw hcols
    · simpa only [targeted, update_of_ne hlj] using h.before l hl
  · intro l hl hkl
    rcases eq_or_ne l j with rfl | hlj
    · simpa only [targeted, update_self] using
        BuildSeg.Complete.addRow_pending hraw hcols hc (ht.not_full hs) (by omega)
    · simpa only [targeted, update_of_ne hlj] using h.behind l hl hkl

theorem indexed_addRow (hall : ∀ k, (t.segs k).Indexed impl cfg) (hmeta : t.metaAdded = true)
    (ht : Target impl cfg t j base hashed) (k : Nat) :
    ((targeted t j (addRow impl cfg base true row .succeed) true).segs k).Indexed impl cfg :=
  (forall_update_iff t.segs fun _ s => s.Indexed impl cfg).mpr
    ⟨fun _ => (ht.complete hmeta (hall j)).addRow hraw hcols, fun k _ => hall k⟩ k

omit hcols in
theorem BuildSeg.Fresh.addRow (h : base.Fresh impl) :
    (DocDb.addRow impl cfg base false row .succeed).Fresh impl := by
  refine ⟨?_, h.2.addRow hraw⟩
  rw [addRow_unhashed hraw]
  exact h.1

/-- An insert in any phase at a good moment. -/
theorem PhaseInv.addRow (h : BuildInv impl cfg t) (ht : Target impl cfg t j base hashed)
    (hgood : GoodMoment cfg t.pc hashed t.current j base.rows.length) :
    PhaseInv impl cfg (targeted t j (addRow impl cfg base hashed row .succeed) hashed) := by
  have hph := h.phase
  have hs := h.toShapeInv
  unfold PhaseInv at hph ⊢
  unfold GoodMoment at hgood
  have hpc' : (targeted t j (DocDb.addRow impl cfg base hashed row .succeed) hashed).pc = t.pc :=
    rfl
  rw [hpc']
  cases hpc : t.pc <;> rw [hpc] at hph hgood
  case start =>
    obtain ⟨hmeta, hhash, hidx, hfull, hcur⟩ := hph
    have hh : hashed = false := by
      cases ht <;> simp [hhash, hmeta]
    have hbase : base.index = none ∧ base.Live := by
      rcases ht.base_cases with rfl | rfl
      · exact hidx _
      · exact ⟨by simp [freshSeg, hmeta], fun r hr => by cases hr⟩
    subst hh
    refine ⟨hmeta, rfl, ?_, ?_, ?_⟩
    · refine (forall_update_iff t.segs fun _ s => s.index = none ∧ s.Live).mpr
        ⟨?_, fun k _ => hidx k⟩
      exact ⟨by rw [addRow_unhashed hraw]; exact hbase.1, hbase.2.addRow hraw⟩
    · intro k (hk : k ≠ j)
      simp only [targeted, update_of_ne hk]
      intro hinit
      -- the segment that was the current one has just become full
      rcases eq_or_ne k t.current with rfl | hne
      · exact hcur (ht.rolled hk)
      · exact hfull k hne hinit
    · simp only [targeted, update_self, addRow_unhashed hraw, length_append, length_singleton]
      intro hlen
      have hroom := ht.room
      simp only [Bool.or_eq_true, decide_eq_true_eq]
      exact .inr (by omega)
  case choose =>
    obtain ⟨hmeta, hfresh, hwait⟩ := hph
    obtain ⟨rfl, rfl⟩ := hgood
    have hbase : base.Fresh impl := by
      rcases ht.base_cases with rfl | rfl
      · exact hfresh
      · exact ⟨.inr (by simp [freshSeg, hmeta]), fun r hr => by cases hr⟩
    refine ⟨hmeta, ?_, ?_⟩
    · simp only [targeted, update_self]
      exact BuildSeg.Fresh.addRow hraw hbase
    · intro k (hk : k ≠ t.current)
      simpa only [targeted, update_of_ne hk] using hwait k hk
  case ensure sid =>
    refine LoopInv.addRow hraw hcols hph hs ht hgood (fun hh heq _ => ?_) id
    rw [← heq, hh]
    exact BuildSeg.Fresh.addRow hraw hph.seg
  case check sid d =>
    refine LoopInv.addRow hraw hcols hph hs ht hgood ?_ ?_
    · rintro hgood rfl rfl
      obtain ⟨hup, hle⟩ := hph.seg
      cases hh : t.hashed with
      | false =>
        have hle := hle hh
        exact ⟨hup.addRow hle hraw, fun _ => by rw [addRow_length]; omega⟩
      | true =>
        -- the loop is past the last row and will not see this one
        have hlt := hgood.resolve_left (by simp [hh])
        have hc := (hup.complete hlt.le).addRow hraw hcols
        exact ⟨hc.upto (by rw [addRow_length]; omega), fun hfalse => by cases hfalse⟩
    · exact fun hP => ⟨hP.1, fun hfalse => by cases hfalse⟩
  case body sid d =>
    refine LoopInv.addRow hraw hcols hph hs ht hgood (fun hh heq _ => ?_) id
    rw [← heq, hh]
    refine ⟨hph.seg.1.addRow hph.seg.2.le hraw, ?_⟩
    rw [addRow_length]
    exact Nat.lt_succ_of_lt hph.seg.2
  case near sid d | locked sid d =>
    refine LoopInv.addRow hraw hcols hph hs ht hgood (fun hh heq _ => ?_) id
    rw [← heq, hh]
    refine ⟨hph.seg.1.addRow hph.seg.2 hraw, ?_⟩
    rw [addRow_length]
    exact Nat.lt_succ_of_lt hph.seg.2
  case fin sid i =>
    obtain ⟨rfl, hroom⟩ := hgood
    exact FinInv.addRow hraw hcols hph hs ht le_rfl (by omega) hroom
  case finRow sid i d =>
    obtain ⟨hfin, hne, hfull, hup⟩ := hph
    obtain ⟨rfl, hroom⟩ := hgood
    have hij : i ≠ j := (ht.ne_of_full hs hfull).symm
    refine ⟨FinInv.addRow hraw hcols hfin hs ht (Nat.le_succ i) (by omega) hroom, hne, ?_, ?_⟩
    · simpa only [targeted, update_of_ne hij] using hfull
    · simpa only [targeted, update_of_ne hij] using hup
  case publish =>
    obtain rfl : hashed = true := hgood
    exact ⟨hph.1, indexed_addRow hraw hcols hph.2 hph.1 ht⟩
  case done =>
    obtain ⟨hmeta, hhash, hall⟩ := hph
    obtain rfl : hashed = true := ht.hashed_eq hmeta fun _ => hhash
    exact ⟨hmeta, rfl, indexed_addRow hraw hcols hall hmeta ht⟩

end Row

theorem insertRow_eq {t' : BuildTable I} (row : List LowData) (others : OtherIndexes)
    (h : prepare impl cfg t = some t') :
    ∃ j base hashed, Target impl cfg t j base hashed ∧ t' = targeted t j base hashed ∧
      insertRow impl cfg t row others =
        targeted t j (addRow impl cfg base hashed row others) hashed := by
  obtain ⟨j, base, hashed, ht, rfl⟩ := prepare_spec h
  refine ⟨j, base, hashed, ht, rfl, ?_⟩
  simp only [insertRow, h]
  simp [targeted, BuildTable.setSeg]

end Insert

theorem BuildInv.insertRow (h : BuildInv impl cfg t) {row : List LowData} {others : OtherIndexes}
    (hclean : CleanRow impl cfg t row others) :
    BuildInv impl cfg (insertRow impl cfg t row others) := by
  obtain ⟨hraw, rfl, hcols, hgood⟩ := hclean
  cases hp : prepare impl cfg t with
  | none => simpa only [DocDb.insertRow, hp] using h
  | some t' =>
    obtain ⟨j, base, hashed, ht, rfl, heq⟩ := insertRow_eq row .succeed hp
    have hgood := hgood _ hp
    simp only [targeted, update_self] at hgood
    rw [heq]
    exact ⟨h.toShapeInv.addRow ht _, PhaseInv.addRow hraw hcols h ht hgood⟩

theorem insertRow_pc (row : List LowData) (others : OtherIndexes) :
    (insertRow impl cfg t row others).pc = t.pc := by
  cases hp : prepare impl cfg t with
  | none => simp only [DocDb.insertRow, hp]
  | some t' =>
    obtain ⟨j, base, hashed, -, -, heq⟩ := insertRow_eq row others hp
    rw [heq]
    rfl

/-! ## §5. Deletes. -/

theorem BuildSeg.modify_cols (s : BuildSeg I) (docid : Nat) :
    BuildSeg.cols { s with rows := s.rows.modify docid fun r => { r with live := false } } =
      s.cols := by
  apply ext_getElem? fun i => ?_
  simp only [BuildSeg.cols, getElem?_map, getElem?_modify]
  cases s.rows[i]? with
  | none => rfl
  | some r => by_cases hi : docid = i <;> simp [hi]

theorem delRow_of_length_le {sid docid : Nat} (h : (t.segs sid).rows.length ≤ docid) :
    delRow t sid docid = t := by
  have hrows : ((t.segs sid).rows.modify docid fun r => { r with live := false }) =
      (t.segs sid).rows := modify_eq_self h
  simp [delRow, BuildTable.setSeg, hrows]

theorem BuildInv.delRow_done (h : BuildInv impl cfg t) (hpc : t.pc = .done) (sid docid : Nat) :
    BuildInv impl cfg (delRow t sid docid) := by
  cases hinit : (t.segs sid).init with
  | false =>
    rw [delRow_of_length_le (by rw [h.absent sid hinit]; exact Nat.zero_le docid)]
    exact h
  | true =>
    refine ⟨h.update rfl hinit (fun hf => ?_) (h.bounded sid hinit) h.current_lt, ?_⟩
    · simpa using h.full sid hf
    have hph := h.phase
    have hpc' : (delRow t sid docid).pc = .done := hpc
    rw [PhaseInv, hpc] at hph
    rw [PhaseInv, hpc']
    refine ⟨hph.1, hph.2.1, ?_⟩
    refine (forall_update_iff t.segs fun _ s => s.Indexed impl cfg).mpr
      ⟨fun _ => ?_, fun j _ => hph.2.2 j⟩
    rw [BuildSeg.Complete, BuildSeg.modify_cols]
    exact hph.2.2 sid hinit

/-! ## §6. The late run and the early run. -/

structure SameRows (t e : BuildTable I) : Prop where
  current : t.current = e.current
  init : ∀ j, (t.segs j).init = (e.segs j).init
  cols : ∀ j, (t.segs j).cols = (e.segs j).cols

variable {e : BuildTable I}

theorem SameRows.length (h : SameRows t e) (j : Nat) :
    (t.segs j).rows.length = (e.segs j).rows.length := by
  rw [← BuildSeg.cols_length, h.cols, BuildSeg.cols_length]

theorem SameRows.freeSeg (h : SameRows t e) : freeSeg cfg t = freeSeg cfg e := by
  simp only [DocDb.freeSeg, h.current, h.init]

theorem SameRows.update {e' : BuildTable I} (h : SameRows t e) {s' : BuildSeg I}
    (ht : t'.segs = update t.segs j s) (he : e'.segs = update e.segs j s')
    (hcur : t'.current = e'.current) (hinit : s.init = s'.init) (hcols : s.cols = s'.cols) :
    SameRows t' e' := by
  have hboth : ∀ k, (t'.segs k).init = (e'.segs k).init ∧ (t'.segs k).cols = (e'.segs k).cols := by
    intro k
    rw [ht, he]
    rcases eq_or_ne k j with rfl | hne
    · simpa using ⟨hinit, hcols⟩
    · simpa [hne] using ⟨h.init k, h.cols k⟩
  exact ⟨hcur, fun k => (hboth k).1, fun k => (hboth k).2⟩

variable (impl cfg) in
theorem SameRows.prepare (h : SameRows t e) :
    (prepare impl cfg t = none ∧ prepare impl cfg e = none) ∨
      ∃ t' e', prepare impl cfg t = some t' ∧ prepare impl cfg e = some e' ∧ SameRows t' e' := by
  have hfree : DocDb.freeSeg cfg e = DocDb.freeSeg cfg t := h.freeSeg.symm
  simp only [DocDb.prepare, ← h.current, ← h.init, ← h.length, hfree]
  by_cases hinit : (t.segs t.current).init = false
  · rw [if_pos hinit, if_pos hinit]
    exact .inr ⟨_, _, rfl, rfl, h.update rfl rfl h.current rfl rfl⟩
  · rw [if_neg hinit, if_neg hinit]
    by_cases hfull : cfg.rowLimit ≤ (t.segs t.current).rows.length
    · rw [if_pos hfull, if_pos hfull]
      cases DocDb.freeSeg cfg t with
      | none => exact .inl ⟨rfl, rfl⟩
      | some j => exact .inr ⟨_, _, rfl, rfl, h.update rfl rfl rfl rfl rfl⟩
    · rw [if_neg hfull, if_neg hfull]
      exact .inr ⟨t, e, rfl, rfl, h⟩

theorem SameRows.insertRow (h : SameRows t e) (hraw : cfg.storeRaw = true) (row : List LowData) :
    SameRows (insertRow impl cfg t row .succeed) (insertRow impl cfg e row .succeed) := by
  rcases h.prepare impl cfg with ⟨ht, he⟩ | ⟨t', e', ht, he, h'⟩
  · simpa only [DocDb.insertRow, ht, he] using h
  · simp only [DocDb.insertRow, ht, he]
    rw [← h'.current]
    refine h'.update rfl rfl h'.current (h'.init _) ?_
    rw [addRow_cols hraw, addRow_cols hraw, h'.cols]

theorem SameRows.refl (t : BuildTable I) : SameRows t t := ⟨rfl, fun _ => rfl, fun _ => rfl⟩

theorem SameRows.trans {u : BuildTable I} (h : SameRows t u) (h' : SameRows u e) : SameRows t e :=
  ⟨h.current.trans h'.current, fun j => (h.init j).trans (h'.init j),
    fun j => (h.cols j).trans (h'.cols j)⟩

theorem sameRows_setIndex {sid : Nat} {x : Option I}
    (hsegs : t'.segs = update t.segs sid { t.segs sid with index := x })
    (hcur : t'.current = t.current) : SameRows t' t :=
  (SameRows.refl t).update hsegs (Function.update_eq_self sid t.segs).symm hcur rfl rfl

variable (impl cfg) in
theorem queryAndInsert_rows (s : BuildSeg I) (docid : Nat) :
    ∃ x, queryAndInsert impl cfg s docid = { s with index := x } := by
  unfold queryAndInsert
  repeat' split
  all_goals exact ⟨_, rfl⟩

variable (impl cfg) in
theorem catchUp_rows (s : BuildSeg I) (docid : Nat) :
    ∃ x, catchUp impl cfg s docid = { s with index := x } := by
  unfold catchUp
  generalize List.range' (docid + 1) (s.rows.length - (docid + 1)) = docids
  have hfold : ∀ x, ∃ y, docids.foldl (queryAndInsert impl cfg) { s with index := x } =
      { s with index := y } := by
    induction docids with
    | nil => exact fun x => ⟨x, rfl⟩
    | cons d ds ih =>
      intro x
      obtain ⟨y, hy⟩ := queryAndInsert_rows impl cfg { s with index := x } d
      rw [foldl_cons, hy]
      exact ih y
  exact hfold s.index

/-- The builder does not touch the rows. -/
theorem buildStep_sameRows (t : BuildTable I) : SameRows (buildStep impl cfg t) t := by
  have hmove : ∀ {t' : BuildTable I}, t'.segs = t.segs → t'.current = t.current →
      SameRows t' t := fun hs hc => ⟨hc, fun _ => by rw [hs], fun _ => by rw [hs]⟩
  unfold DocDb.buildStep
  split
  · exact hmove rfl rfl
  · split <;> exact hmove rfl rfl
  · exact sameRows_setIndex rfl rfl
  · split <;> exact hmove rfl rfl
  · next sid docid _ =>
      obtain ⟨x, hx⟩ := queryAndInsert_rows impl cfg (t.segs sid) docid
      rw [hx]
      exact sameRows_setIndex rfl rfl
  · split <;> exact hmove rfl rfl
  · next sid docid _ =>
      obtain ⟨x, hx⟩ := catchUp_rows impl cfg (t.segs sid) docid
      rw [hx]
      exact sameRows_setIndex rfl rfl
  · split
    · exact hmove rfl rfl
    · split
      · exact sameRows_setIndex rfl rfl
      · exact hmove rfl rfl
  · next sid i docid _ =>
      split
      · obtain ⟨x, hx⟩ := queryAndInsert_rows impl cfg (t.segs i) docid
        rw [hx]
        exact sameRows_setIndex rfl rfl
      · exact hmove rfl rfl
  · exact hmove rfl rfl
  · exact SameRows.refl t

theorem delRow_sameRows (t : BuildTable I) (sid docid : Nat) : SameRows (delRow t sid docid) t :=
  (SameRows.refl t).update rfl (Function.update_eq_self sid t.segs).symm rfl rfl
    (BuildSeg.modify_cols _ docid)

/-! ## §7. The index before the first insert. -/

def emptyAt (hashed : Bool) (pc : Pc) : BuildTable I := ⟨fun _ => absentSeg, 0, true, hashed, pc⟩

theorem buildStep_emptyAt (hashed : Bool) (n : Nat) (hn : n ≤ cfg.maxSegmentNum) :
    (buildStep impl cfg)^[n] (emptyAt hashed (.fin 0 0)) = emptyAt hashed (.fin 0 n) := by
  induction n with
  | zero => rfl
  | succ n ih =>
    rw [Function.iterate_succ_apply', ih (by omega)]
    have hlt : ¬ cfg.maxSegmentNum ≤ n := by omega
    simp [DocDb.buildStep, emptyAt, absentSeg, hlt]

theorem ensuredTable_eq : (ensuredTable impl cfg : BuildTable I) = emptyAt true .done := by
  have hsplit : cfg.maxSegmentNum + 4 = 2 + (cfg.maxSegmentNum + 2) := by omega
  rw [ensuredTable, hsplit, Function.iterate_add_apply, Function.iterate_add_apply]
  have hstart : (buildStep impl cfg)^[2] (emptyBuildTable : BuildTable I) =
      emptyAt (false || cfg.aliased) (.fin 0 0) := rfl
  rw [hstart, buildStep_emptyAt _ _ le_rfl]
  simp only [Function.iterate_succ_apply, Function.iterate_zero, id_eq, DocDb.buildStep, emptyAt,
    le_refl, if_true]

theorem ensuredTable_inv : BuildInv impl cfg (ensuredTable impl cfg : BuildTable I) := by
  have hiter : ∀ n,
      BuildInv impl cfg ((buildStep impl cfg)^[n] (emptyBuildTable : BuildTable I)) := by
    intro n
    induction n with
    | zero => exact emptyBuildTable_inv
    | succ n ih =>
      rw [Function.iterate_succ_apply']
      exact ih.buildStep
  exact hiter _

/-! ## §8. Late and early. -/

variable (impl cfg) in
/-- The late run and the early run after the same inserts. -/
structure BothInv (events : List BuildEvent) (t : BuildTable I) : Prop where
  late : BuildInv impl cfg t
  early : BuildInv impl cfg (earlyRun impl cfg (insertedRows events))
  done : (earlyRun impl cfg (insertedRows events)).pc = .done
  same : SameRows t (earlyRun impl cfg (insertedRows events))

variable {events : List BuildEvent}

theorem insertedRows_append (e : BuildEvent) :
    insertedRows (events ++ [e]) = insertedRows events ++ insertedRows [e] := by
  simp [insertedRows]

theorem insertedRows_skip {e : BuildEvent} (h : insertedRows [e] = []) :
    insertedRows (events ++ [e]) = insertedRows events := by
  rw [insertedRows_append, h, append_nil]

theorem CleanRow.of_done {row : List LowData} {others : OtherIndexes}
    (h : CleanRow impl cfg t row others) (hdone : e.pc = .done) :
    CleanRow impl cfg e row others := by
  obtain ⟨hraw, hothers, hcols, -⟩ := h
  refine ⟨hraw, hothers, hcols, fun e' _ => ?_⟩
  rw [hdone]
  trivial

/-- The step lemma of the runs. -/
theorem BothInv.event (h : BothInv impl cfg events t) {e : BuildEvent}
    (hclean : CleanEvent impl cfg t e) :
    BothInv impl cfg (events ++ [e]) (buildEvent impl cfg t e) := by
  cases e with
  | insert row others =>
    have hearly : earlyRun impl cfg (insertedRows (events ++ [.insert row others])) =
        insertRow impl cfg (earlyRun impl cfg (insertedRows events)) row .succeed := by
      rw [insertedRows_append, earlyRun, foldl_append]
      rfl
    obtain rfl : others = .succeed := hclean.2.1
    refine ⟨h.late.insertRow hclean, ?_, ?_, ?_⟩
    · rw [hearly]
      exact h.early.insertRow (CleanRow.of_done hclean h.done)
    · rw [hearly, insertRow_pc]
      exact h.done
    · rw [hearly]
      exact h.same.insertRow hclean.1 row
  | del sid docid =>
    have hearly := @insertedRows_skip events (.del sid docid) rfl
    refine ⟨?_, hearly ▸ h.early, hearly ▸ h.done,
      hearly ▸ (delRow_sameRows t sid docid).trans h.same⟩
    rcases hclean with hpc | hlen
    · exact h.late.delRow_done hpc sid docid
    · show BuildInv impl cfg (delRow t sid docid)
      rw [delRow_of_length_le hlen]
      exact h.late
  | build =>
    have hearly := @insertedRows_skip events .build rfl
    exact ⟨h.late.buildStep, hearly ▸ h.early, hearly ▸ h.done,
      hearly ▸ (buildStep_sameRows t).trans h.same⟩

theorem CleanRun.both (h : CleanRun impl cfg events) :
    BothInv impl cfg events (buildRun impl cfg events) := by
  have hstart : BothInv impl cfg [] (emptyBuildTable : BuildTable I) := by
    refine ⟨emptyBuildTable_inv, ensuredTable_inv, ?_, ?_⟩
    · show (ensuredTable impl cfg).pc = _
      rw [ensuredTable_eq]
      rfl
    · show SameRows _ (ensuredTable impl cfg)
      rw [ensuredTable_eq]
      exact ⟨rfl, fun _ => rfl, fun _ => rfl⟩
  exact EachStep.foldl_inv (BothInv impl cfg) (fun _ _ _ hinv hc => hinv.event hc) [] hstart h

theorem BuildInv.index_eq (ht : BuildInv impl cfg t) (he : BuildInv impl cfg e) (htd : t.pc = .done)
    (hed : e.pc = .done) (h : SameRows t e) (sid : Nat) :
    (t.segs sid).index = (e.segs sid).index := by
  have hpt := ht.phase
  have hpe := he.phase
  unfold PhaseInv at hpt hpe
  rw [htd] at hpt
  rw [hed] at hpe
  cases hinit : (t.segs sid).init with
  | false => rw [ht.absent sid hinit, he.absent sid (h.init sid ▸ hinit)]
  | true =>
    rw [hpt.2.2 sid hinit, hpe.2.2 sid (h.init sid ▸ hinit), h.cols]

end Clean

/-- A table with two segments of three rows and an index on the column `a`. -/
def smallBuild : BuildConfig where
  limit := ⟨3, by decide, by decide⟩
  maxSegmentNum := 2
  storeRaw := true
  fieldName := [97]
  dataType := .tiny
  aliased := false
  max_pos := by decide

/-- A hash index on the three rows. -/
def smallHashed : FieldIndexAlg smallBuild.limit := .hash (by decide)

/-- A row with the one column `a`. -/
def smallRow (x : UInt8) : List LowData := [⟨[97], .tiny, [x]⟩]

/-- Four inserts: before the build, in its first loop, after the index can be
seen, and into a segment that begins during the last loop. -/
def racingRun : List BuildEvent :=
  [.insert (smallRow 5) .succeed, .build, .build, .build, .insert (smallRow 6) .succeed, .build,
   .build, .build, .build, .insert (smallRow 5) .succeed, .build, .insert (smallRow 7) .succeed,
   .build, .build, .build, .build]

/-- The index of an empty table is built, and a row is inserted before the
build ends: the new segment has the index, but the insert does not see it. -/
def missedRun : List BuildEvent :=
  [.build, .build, .insert (smallRow 5) .succeed, .build, .build, .build, .build]

end Mile.DocDb
