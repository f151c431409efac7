/-
  Mile.Lib.Prog
  ─────────────
  **PROGRAMS OVER AN INTERFACE.**

  A program asks for operations one after another and goes on with their answers.  A handler says
  what an operation does, so a property can speak about every operation of a run (`Prog.Each`).
-/
import Mathlib

namespace Mile.Lib

/-- Programs of operations `op` with answers of type `Res op`, which end with an
`α` or give up with an `ε`. -/
inductive Prog {Op : Type} (Res : Op → Type) (ε α : Type) : Type where
  | pure (a : α)
  | fail (e : ε)
  | step (op : Op) (k : Res op → Prog Res ε α)

namespace Prog

variable {Op : Type} {Res : Op → Type} {ε ε' α β : Type}

/-! ## §1. Sequencing. -/

/-- One program after another; a program that gives up ends the sequence. -/
def bind : Prog Res ε α → (α → Prog Res ε β) → Prog Res ε β
  | .pure a, f => f a
  | .fail e, _ => .fail e
  | .step op k, f => .step op fun r => (k r).bind f

instance : Monad (Prog Res ε) where
  pure := .pure
  bind := .bind

def ask (op : Op) : Prog Res ε (Res op) := .step op .pure

def attempt : Prog Res ε α → Prog Res ε' (Except ε α)
  | .pure a => .pure (.ok a)
  | .fail e => .pure (.error e)
  | .step op k => .step op fun r => (k r).attempt

def mapFail (f : ε → ε') : Prog Res ε α → Prog Res ε' α
  | .pure a => .pure a
  | .fail e => .fail (f e)
  | .step op k => .step op fun r => (k r).mapFail f

/-- The results of `n` rounds; a round that gives up ends the loop with the
results before it. -/
def collect (m : Prog Res ε α) : Nat → Prog Res (List α) (List α)
  | 0 => pure []
  | n + 1 => do
    let a ← m.mapFail fun _ => []
    (do let as ← collect m n
        Prog.pure (a :: as)).mapFail (a :: ·)

/-! ## §2. Runs. -/

section Run

variable {σ φ : Type} (h : (op : Op) → σ → Except φ (Res op × σ))

def run : Prog Res ε α → σ → Except φ (Except ε α × σ)
  | .pure a, s => .ok (.ok a, s)
  | .fail e, s => .ok (.error e, s)
  | .step op k, s =>
    match h op s with
    | .ok (r, s') => (k r).run s'
    | .error e => .error e

/-- Every operation of the run meets the condition in the state it finds. -/
def Each (P : Op → σ → Prop) : Prog Res ε α → σ → Prop
  | .pure _, _ => True
  | .fail _, _ => True
  | .step op k, s =>
    P op s ∧
      match h op s with
      | .ok (r, s') => (k r).Each P s'
      | .error _ => True

theorem each_step {P : Op → σ → Prop} {op : Op} {k : Res op → Prog Res ε α} {s : σ} :
    (Prog.step op k).Each h P s ↔
      P op s ∧
        match h op s with
        | .ok (r, s') => (k r).Each h P s'
        | .error _ => True := by
  rw [Each]

instance Each.decidable (P : Op → σ → Prop) [∀ op s, Decidable (P op s)] :
    (m : Prog Res ε α) → (s : σ) → Decidable (m.Each h P s)
  | .pure _, _ => isTrue trivial
  | .fail _, _ => isTrue trivial
  | .step op k, s =>
    have : Decidable (match h op s with
        | .ok (r, s') => (k r).Each h P s'
        | .error _ => True) :=
      match h op s with
      | .ok (r, s') => Each.decidable P (k r) s'
      | .error _ => isTrue trivial
    decidable_of_iff _ (each_step h).symm

variable {h} {P Q : Op → σ → Prop} {s s' : σ}

theorem run_step_ok {op : Op} {k : Res op → Prog Res ε α} {r : Res op}
    (hop : h op s = .ok (r, s')) :
    (Prog.step op k).run h s = (k r).run h s' := by
  simp only [run, hop]

theorem run_step_error {op : Op} {k : Res op → Prog Res ε α} {e : φ} (hop : h op s = .error e) :
    (Prog.step op k).run h s = .error e := by
  simp only [run, hop]

theorem each_step_ok {op : Op} {k : Res op → Prog Res ε α} {r : Res op}
    (hop : h op s = .ok (r, s')) :
    (Prog.step op k).Each h P s ↔ P op s ∧ (k r).Each h P s' := by
  simp only [Each, hop]

variable {m : Prog Res ε α} {f : α → Prog Res ε β}

theorem run_bind (m : Prog Res ε α) (f : α → Prog Res ε β) (s : σ) :
    (m >>= f).run h s =
      match m.run h s with
      | .ok (.ok a, s') => (f a).run h s'
      | .ok (.error e, s') => .ok (.error e, s')
      | .error e => .error e := by
  induction m generalizing s with
  | pure a => rfl
  | fail e => rfl
  | step op k ih =>
    show (Prog.step op fun r => (k r).bind f).run h s = _
    cases hop : h op s with
    | error e => rw [run_step_error hop, run_step_error hop]
    | ok r => rw [run_step_ok hop, run_step_ok hop]; exact ih r.1 r.2

theorem run_bind_ok {a : α} (hm : m.run h s = .ok (.ok a, s')) :
    (m >>= f).run h s = (f a).run h s' := by
  rw [run_bind, hm]

theorem run_bind_error {e : φ} (hm : m.run h s = .error e) : (m >>= f).run h s = .error e := by
  rw [run_bind, hm]

theorem run_bind_cases {x : Except ε β} (hrun : (m >>= f).run h s = .ok (x, s')) :
    (∃ e, m.run h s = .ok (.error e, s') ∧ x = .error e) ∨
      ∃ a s₁, m.run h s = .ok (.ok a, s₁) ∧ (f a).run h s₁ = .ok (x, s') := by
  rw [run_bind] at hrun
  cases hm : m.run h s with
  | error e => rw [hm] at hrun; cases hrun
  | ok r =>
    rw [hm] at hrun
    obtain ⟨e | a, s₁⟩ := r
    · cases hrun
      exact .inl ⟨e, rfl, rfl⟩
    · exact .inr ⟨a, s₁, rfl, hrun⟩

/-- The rule for sequences. -/
theorem each_bind :
    (m >>= f).Each h P s ↔
      m.Each h P s ∧ ∀ a s', m.run h s = .ok (.ok a, s') → (f a).Each h P s' := by
  induction m generalizing s with
  | pure b =>
    refine ⟨fun hf => ⟨trivial, fun a s' heq => ?_⟩, fun hf => hf.2 b s rfl⟩
    cases heq
    exact hf
  | fail e => exact ⟨fun _ => ⟨trivial, fun a s' heq => by cases heq⟩, fun _ => trivial⟩
  | step op k ih =>
    show (Prog.step op fun r => (k r).bind f).Each h P s ↔ _
    cases hop : h op s with
    | error e => simp [Each, run, hop]
    | ok r =>
      rw [each_step_ok hop, each_step_ok hop, run_step_ok hop, and_assoc]
      exact and_congr_right fun _ => ih r.1

/-! ## §3. Giving up, and going on. -/

theorem run_attempt (m : Prog Res ε α) (s : σ) :
    (m.attempt : Prog Res ε' (Except ε α)).run h s =
      match m.run h s with
      | .ok (x, s') => .ok (.ok x, s')
      | .error e => .error e := by
  induction m generalizing s with
  | pure a => rfl
  | fail e => rfl
  | step op k ih =>
    show (Prog.step op fun r => (k r).attempt).run h s = _
    cases hop : h op s with
    | error e => rw [run_step_error hop, run_step_error hop]
    | ok r => rw [run_step_ok hop, run_step_ok hop]; exact ih r.1 r.2

theorem run_attempt_ok {x : Except ε α} (hm : m.run h s = .ok (x, s')) :
    (m.attempt : Prog Res ε' (Except ε α)).run h s = .ok (.ok x, s') := by
  rw [run_attempt, hm]

theorem run_attempt_inv {y : Except ε' (Except ε α)}
    (hm : m.attempt.run h s = .ok (y, s')) : ∃ x, m.run h s = .ok (x, s') ∧ y = .ok x := by
  rw [run_attempt] at hm
  cases hr : m.run h s with
  | error e => rw [hr] at hm; cases hm
  | ok r =>
    rw [hr] at hm
    cases hm
    exact ⟨r.1, rfl, rfl⟩

theorem each_attempt : (m.attempt : Prog Res ε' (Except ε α)).Each h P s ↔ m.Each h P s := by
  induction m generalizing s with
  | pure a | fail e => exact Iff.rfl
  | step op k ih =>
    show (Prog.step op fun r => (k r).attempt).Each h P s ↔ _
    cases hop : h op s with
    | error e => simp only [Each, hop]
    | ok r =>
      rw [each_step_ok hop, each_step_ok hop]
      exact and_congr_right fun _ => ih r.1

theorem run_mapFail (f : ε → ε') (m : Prog Res ε α) (s : σ) :
    (m.mapFail f).run h s =
      match m.run h s with
      | .ok (.ok a, s') => .ok (.ok a, s')
      | .ok (.error e, s') => .ok (.error (f e), s')
      | .error e => .error e := by
  induction m generalizing s with
  | pure a => rfl
  | fail e => rfl
  | step op k ih =>
    show (Prog.step op fun r => (k r).mapFail f).run h s = _
    cases hop : h op s with
    | error e => rw [run_step_error hop, run_step_error hop]
    | ok r => rw [run_step_ok hop, run_step_ok hop]; exact ih r.1 r.2

theorem run_mapFail_ok {f : ε → ε'} {a : α} :
    (m.mapFail f).run h s = .ok (.ok a, s') ↔ m.run h s = .ok (.ok a, s') := by
  rw [run_mapFail]
  cases hm : m.run h s with
  | error e => simp
  | ok r => obtain ⟨r | r, t⟩ := r <;> simp

theorem run_mapFail_error {f : ε → ε'} {e' : ε'}
    (hm : (m.mapFail f).run h s = .ok (.error e', s')) :
    ∃ e, m.run h s = .ok (.error e, s') ∧ e' = f e := by
  rw [run_mapFail] at hm
  cases hr : m.run h s with
  | error e => rw [hr] at hm; cases hm
  | ok r =>
    rw [hr] at hm
    obtain ⟨r | r, t⟩ := r
    · cases hm
      exact ⟨r, rfl, rfl⟩
    · cases hm

theorem each_mapFail {f : ε → ε'} : (m.mapFail f).Each h P s ↔ m.Each h P s := by
  induction m generalizing s with
  | pure a | fail e => exact Iff.rfl
  | step op k ih =>
    show (Prog.step op fun r => (k r).mapFail f).Each h P s ↔ _
    cases hop : h op s with
    | error e => simp only [Each, hop]
    | ok r =>
      rw [each_step_ok hop, each_step_ok hop]
      exact and_congr_right fun _ => ih r.1

/-! ## §4. The rules. -/

variable {Inv : σ → Prop} (hinv : ∀ op s r s', Inv s → h op s = .ok (r, s') → Inv s')

include hinv

variable (Inv) in
theorem run_inv {x : Except ε α} (hs : Inv s) (hrun : m.run h s = .ok (x, s')) : Inv s' := by
  induction m generalizing s with
  | pure a | fail e => cases hrun; exact hs
  | step op k ih =>
    cases hop : h op s with
    | error e => rw [run_step_error hop] at hrun; cases hrun
    | ok r =>
      rw [run_step_ok hop] at hrun
      exact ih r.1 (hinv op s r.1 r.2 hs hop) hrun

/-- **The progress rule**: a run of operations that are not stopped goes to its
end. -/
theorem run_ok (hok : ∀ op s, Inv s → P op s → ∃ r, h op s = .ok r) (hs : Inv s)
    (hm : m.Each h P s) : ∃ r, m.run h s = .ok r := by
  induction m generalizing s with
  | pure a | fail e => exact ⟨_, rfl⟩
  | step op k ih =>
    have hP : P op s := ((each_step h).mp hm).1
    obtain ⟨r, hop⟩ := hok op s hs hP
    rw [run_step_ok hop]
    rw [each_step_ok hop] at hm
    exact ih r.1 (hinv op s r.1 r.2 hs hop) hm.2

end Run

end Prog

end Mile.Lib
