/-
  Mile.Lib.Run
  ────────────
  **RUNS OF A PARTIAL STEP FUNCTION.**

  A run folds a step function `σ → α → Option σ` over a list of actions.  `Along step P` says that
  `P` holds of state and action at every step of a run.
-/
import Mathlib

namespace Mile.Lib

open List

section Run

variable {σ α : Type*} (step : σ → α → Option σ)

/-- Run the actions from `s` on. -/
def run : σ → List α → Option σ
  | s, [] => some s
  | s, a :: as => (step s a).bind fun s' => run s' as

/-- `P` holds at every step of the run of the actions from `s` on. -/
def Along (P : σ → α → Prop) : σ → List α → Prop
  | _, [] => True
  | s, a :: as => P s a ∧ ∀ s', step s a = some s' → Along P s' as

instance decidableAlong (P : σ → α → Prop) [∀ s a, Decidable (P s a)] :
    ∀ s as, Decidable (Along step P s as)
  | _, [] => isTrue trivial
  | s, a :: as =>
    have : Decidable (∀ s', step s a = some s' → Along step P s' as) :=
      match step s a with
      | none => isTrue (fun _ h => nomatch h)
      | some s' =>
        match decidableAlong P s' as with
        | isTrue h => isTrue (fun _ hs => Option.some.inj hs ▸ h)
        | isFalse h => isFalse (fun hall => h (hall s' rfl))
    inferInstanceAs (Decidable (_ ∧ _))

variable {step} {P : σ → α → Prop}

theorem run_append (s : σ) (as bs : List α) :
    run step s (as ++ bs) = (run step s as).bind fun s' => run step s' bs := by
  induction as generalizing s with
  | nil => rfl
  | cons a as ih =>
    simp only [cons_append, run, Option.bind_assoc]
    congr 1
    funext s'
    exact ih s'

theorem along_of_forall {Q : α → Prop} :
    ∀ {as : List α} (s : σ), (∀ a ∈ as, Q a) → Along step (fun _ a => Q a) s as
  | [], _, _ => trivial
  | a :: _, _, h =>
    ⟨h a mem_cons_self, fun s' _ => along_of_forall s' fun b hb => h b (mem_cons_of_mem _ hb)⟩

theorem Along.and {Q : σ → α → Prop} :
    ∀ {as : List α} {s : σ}, Along step P s as → Along step Q s as →
      Along step (fun s a => P s a ∧ Q s a) s as
  | [], _, _, _ => trivial
  | _ :: _, _, hp, hq => ⟨⟨hp.1, hq.1⟩, fun s' hs => (hp.2 s' hs).and (hq.2 s' hs)⟩

/-- **The invariant rule**: steps that satisfy the side condition succeed and
keep the invariant, so a run of such steps does. -/
theorem Along.run_inv (Inv : List α → σ → Prop)
    (hstep : ∀ pre s a, Inv pre s → P s a → ∃ s', step s a = some s' ∧ Inv (pre ++ [a]) s') :
    ∀ (as pre : List α) (s : σ), Inv pre s → Along step P s as →
      ∃ s', run step s as = some s' ∧ Inv (pre ++ as) s'
  | [], pre, s, hs, _ => ⟨s, rfl, by rwa [append_nil]⟩
  | a :: as, pre, s, hs, h => by
    obtain ⟨s', hs', hinv⟩ := hstep pre s a hs h.1
    obtain ⟨t, ht, hinvt⟩ := Along.run_inv Inv hstep as (pre ++ [a]) s' hinv (h.2 s' hs')
    rw [← append_cons] at hinvt
    exact ⟨t, by rw [run, hs']; exact ht, hinvt⟩

/-- **The invariant rule for a run that ended.**  A step may also use that its
action is the next one of the whole list. -/
theorem Along.inv_of_run (Inv : List α → σ → Prop) (pre : List α) {as : List α} {s s' : σ}
    (hstep : ∀ done t a t', done ++ [a] <+: pre ++ as → Inv done t → P t a → step t a = some t' →
      Inv (done ++ [a]) t')
    (hs : Inv pre s) (h : Along step P s as) (hrun : run step s as = some s') :
    Inv (pre ++ as) s' := by
  induction as generalizing pre s with
  | nil =>
    cases hrun
    rwa [append_nil]
  | cons a as ih =>
    obtain ⟨t, ht, hrest⟩ := Option.bind_eq_some_iff.mp hrun
    rw [append_cons] at hstep ⊢
    -- the action moves from the list to the history
    exact ih (pre ++ [a]) hstep (hstep pre s a t (prefix_append _ _) hs h.1 ht) (h.2 t ht) hrest

def recorded (step : σ → α → Option σ) (s : σ × List α) (a : α) : Option (σ × List α) :=
  (step s.1 a).map fun s' => (s', s.2 ++ [a])

theorem run_recorded (s : σ) (done as : List α) :
    run (recorded step) (s, done) as = (run step s as).map fun s' => (s', done ++ as) := by
  induction as generalizing s done with
  | nil => simp [run]
  | cons a as ih =>
    simp only [run, recorded]
    cases step s a with
    | none => rfl
    | some s' =>
      simp only [Option.map_some, Option.bind_some]
      rw [ih, ← append_cons]

end Run

section EachStep

variable {σ α : Type*} (f : σ → α → σ) (P : σ → α → Prop)

/-- Along the run of a total step, every action meets its side condition in the
state it finds. -/
def EachStep : σ → List α → Prop
  | _, [] => True
  | s, a :: as => P s a ∧ EachStep (f s a) as

instance EachStep.decidable [∀ s a, Decidable (P s a)] :
    ∀ s as, Decidable (EachStep f P s as)
  | _, [] => isTrue trivial
  | s, a :: as =>
    have := EachStep.decidable (f s a) as
    inferInstanceAs (Decidable (P s a ∧ EachStep f P (f s a) as))

variable {f P}

/-- **The invariant rule** for a total step; the invariant may speak about the
actions so far. -/
theorem EachStep.foldl_inv (Inv : List α → σ → Prop)
    (hstep : ∀ done s a, Inv done s → P s a → Inv (done ++ [a]) (f s a)) {as : List α} {s : σ}
    (done : List α) (hs : Inv done s) (h : EachStep f P s as) :
    Inv (done ++ as) (as.foldl f s) := by
  induction as generalizing done s with
  | nil => rwa [append_nil]
  | cons a as ih =>
    rw [append_cons]
    exact ih (done ++ [a]) (hstep done s a hs h.1) h.2

end EachStep

/-- **Where a run stays good.**  If good states that satisfy the invariant are
left for good states exactly by clean actions, and clean actions keep the
invariant, then all states of a run are good if and only if all its actions
are clean. -/
theorem foldl_good_iff {σ α : Type*} {f : σ → α → σ} {Inv Good : σ → Prop} {Clean : σ → α → Prop}
    (hgood : ∀ s, Inv s → Good s) (hkeep : ∀ s a, Inv s → Clean s a → Inv (f s a))
    (hneed : ∀ s a, Inv s → Good (f s a) → Clean s a) {s : σ} (hs : Inv s) (as : List α) :
    (∀ pre, pre <+: as → Good (pre.foldl f s)) ↔
      ∀ pre a, pre ++ [a] <+: as → Clean (pre.foldl f s) a := by
  constructor
  · intro h
    have hinv : ∀ pre, pre <+: as → Inv (pre.foldl f s) := by
      intro pre
      induction pre using reverseRecOn with
      | nil => exact fun _ => hs
      | append_singleton pre a ih =>
        intro hpre
        have hi := ih ((prefix_append pre [a]).trans hpre)
        have hnext := h _ hpre
        rw [foldl_concat] at hnext ⊢
        exact hkeep _ a hi (hneed _ a hi hnext)
    intro pre a hpre
    have hnext := h _ hpre
    rw [foldl_concat] at hnext
    exact hneed _ a (hinv pre ((prefix_append pre [a]).trans hpre)) hnext
  · intro h pre hpre
    refine hgood _ ?_
    induction pre using reverseRecOn with
    | nil => exact hs
    | append_singleton pre a ih =>
      rw [foldl_concat]
      exact hkeep _ a (ih ((prefix_append pre [a]).trans hpre)) (h pre a hpre)

/-- **The rule for a counting loop** whose body may fail: bodies that keep the
invariant of their round lead to the end of the loop. -/
theorem foldlM_range_inv {σ : Type*} {body : σ → Nat → Option σ} {Inv : Nat → σ → Prop} {n : Nat}
    (hstep : ∀ i s, i < n → Inv i s → ∃ s', body s i = some s' ∧ Inv (i + 1) s') {s : σ}
    (hs : Inv 0 s) : ∃ s', (List.range n).foldlM body s = some s' ∧ Inv n s' := by
  induction n with
  | zero => exact ⟨s, rfl, hs⟩
  | succ n ih =>
    obtain ⟨t, ht, hinv⟩ := ih fun i s hi => hstep i s (by omega)
    obtain ⟨t', ht', hinv'⟩ := hstep n t (by omega) hinv
    refine ⟨t', ?_, hinv'⟩
    rw [range_succ, foldlM_append, ht]
    simp [ht']

end Mile.Lib
