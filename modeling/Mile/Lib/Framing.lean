/-
  Mile.Lib.Framing
  ────────────────
  **SELF-DELIMITING FRAMES IN A STREAM.**

  A frame tells its own length in its first `short` items.  A receiver hands whole frames at the
  front of its buffer to a handler that may fail, and keeps the rest for the next chunk.
-/
import Mile.Lib.LittleEndian

namespace Mile.Lib

open List

section Frames

variable {α σ ε : Type*} (short : Nat) (lenOf : List α → Nat)

/-! ## §1. Frames and the receive loop. -/

/-- `f` is a frame: it is longer than its length field, and every buffer
that starts with that field is read as holding a frame of `f`'s length. -/
def IsFrame (f : List α) : Prop :=
  short < f.length ∧ ∀ s, f.take short <+: s → lenOf s = f.length

/-- The receive loop: while a whole frame stands at the front of the buffer,
hand it over and drop it.  `stuck` is the outcome of a loop that never ends
(a frame of length zero is dropped without progress). -/
def drain (handle : σ → List α → Except ε σ) (stuck : σ → ε) :
    Nat → σ → List α → Except ε (σ × List α)
  | 0, s, _ => .error (stuck s)
  | fuel + 1, s, buf =>
    if buf.length ≤ short then .ok (s, buf)
    else if buf.length < lenOf buf then .ok (s, buf)
    else
      match handle s (buf.take (lenOf buf)) with
      | .error e => .error e
      | .ok s' => drain handle stuck fuel s' (buf.drop (lenOf buf))

def handleAll (handle : σ → List α → Except ε σ) : σ → List (List α) → Except ε σ
  | s, [] => .ok s
  | s, f :: fs =>
    match handle s f with
    | .error e => .error e
    | .ok s' => handleAll handle s' fs

variable {short lenOf} {handle : σ → List α → Except ε σ} {stuck : σ → ε}

theorem drain_cons {f : List α} (hf : IsFrame short lenOf f) (fuel : Nat) (s : σ) (tail : List α) :
    drain short lenOf handle stuck (fuel + 1) s (f ++ tail)
      = match handle s f with
        | .error e => .error e
        | .ok s' => drain short lenOf handle stuck fuel s' tail := by
  obtain ⟨hshort, hlen⟩ := hf
  have hl : lenOf (f ++ tail) = f.length := hlen _ (( take_prefix _ _).trans (prefix_append _ _))
  simp only [drain, hl, length_append]
  rw [if_neg (by omega), if_neg (by omega), take_left, drop_left]

theorem drain_partial {f p : List α} (hf : IsFrame short lenOf f) (hp : p <+: f)
    (hlt : p.length < f.length) (fuel : Nat) (s : σ) :
    drain short lenOf handle stuck (fuel + 1) s p = .ok (s, p) := by
  by_cases hs : p.length ≤ short
  · simp [drain, hs]
  · have htake : f.take short = p.take short := by
      obtain ⟨t, rfl⟩ := hp
      exact take_append_of_le_length (by omega)
    have hl : lenOf p = f.length := by
      apply hf.2
      rw [htake]
      exact take_prefix _ _
    simp [drain, hs, hl, hlt]

/-- **The receive loop is frame exact**: with a buffer of whole frames and a
rest the loop stops at, the handler sees the frames in order and the rest
stays. -/
theorem drain_frames {fs : List (List α)} (hfs : ∀ f ∈ fs, IsFrame short lenOf f)
    {tail : List α}
    (htail : ∀ fuel s, drain short lenOf handle stuck (fuel + 1) s tail = .ok (s, tail)) :
    ∀ (fuel : Nat) (s : σ), fs.length < fuel →
      drain short lenOf handle stuck fuel s (fs.flatten ++ tail)
        = (handleAll handle s fs).map (fun s' => (s', tail)) := by
  induction fs with
  | nil =>
    intro fuel s hfuel
    obtain ⟨n, rfl⟩ : ∃ n, fuel = n + 1 := ⟨fuel - 1, by simp at hfuel; omega⟩
    -- no frame is left: the loop stops at the rest
    exact htail n s
  | cons f fs ih =>
    intro fuel s hfuel
    obtain ⟨n, rfl⟩ : ∃ n, fuel = n + 1 := ⟨fuel - 1, by simp at hfuel; omega⟩
    have hf : IsFrame short lenOf f := hfs f mem_cons_self
    -- one round for the first frame, the others by induction
    rw [flatten_cons, append_assoc, drain_cons hf]
    simp only [handleAll]
    cases handle s f with
    | error e => rfl
    | ok s' =>
      exact ih (fun g hg => hfs g (mem_cons_of_mem _ hg)) n s'
        (by simp at hfuel; omega)

end Frames

/-! ## §2. Cutting a concatenation. -/

section Cut

variable {α : Type*} {fs : List (List α)}

/-- **Every prefix of a concatenation** is `k` whole pieces followed by a
proper prefix of piece `k` (or by nothing, when no piece is left). -/
theorem prefix_split :
    ∀ {p : List α}, p <+: fs.flatten → (∀ f ∈ fs, f ≠ []) →
      ∃ k tail, k ≤ fs.length ∧ p = (fs.take k).flatten ++ tail ∧
        ((k = fs.length ∧ tail = []) ∨
          ∃ f, fs[k]? = some f ∧ tail <+: f ∧ tail.length < f.length) := by
  induction fs with
  | nil =>
    intro p hp _
    have : p = [] := by simpa using hp
    exact ⟨0, [], by simp, by simp [this], .inl ⟨rfl, rfl⟩⟩
  | cons f fs ih =>
    intro p hp hne
    rw [flatten_cons] at hp
    by_cases hlt : p.length < f.length
    · -- the cut falls inside the first piece
      have hpf : p <+: f := prefix_of_prefix_length_le hp
        (prefix_append f fs.flatten) (by omega)
      exact ⟨0, p, by simp, by simp, .inr ⟨f, by simp, hpf, hlt⟩⟩
    · -- the first piece is whole: cut what is behind it
      have hfp : f <+: p := prefix_of_prefix_length_le
        (prefix_append f fs.flatten) hp (by omega)
      obtain ⟨q, rfl⟩ := hfp
      have hq : q <+: fs.flatten := by
        rwa [prefix_append_right_inj] at hp
      obtain ⟨k, tail, hk, hqe, hcase⟩ := ih hq (fun g hg => hne g (mem_cons_of_mem _ hg))
      refine ⟨k + 1, tail, by simp; omega, by simp [hqe], ?_⟩
      rcases hcase with ⟨hkl, ht⟩ | ⟨g, hg, hpre, hl⟩
      · exact .inl ⟨by simp [hkl], ht⟩
      · exact .inr ⟨g, by simpa using hg, hpre, hl⟩

/-- The pieces that are wholly among the first `n` elements of a
concatenation. -/
def wholePieces : List (List α) → Nat → List (List α)
  | [], _ => []
  | f :: fs, n => if f.length ≤ n then f :: wholePieces fs (n - f.length) else []

theorem wholePieces_mono (fs : List (List α)) :
    ∀ {n m : Nat}, n ≤ m → wholePieces fs n <+: wholePieces fs m := by
  induction fs with
  | nil =>
    intro n m _
    exact prefix_refl _
  | cons f fs ih =>
    intro n m hnm
    by_cases hf : f.length ≤ n
    · rw [wholePieces, wholePieces, if_pos hf, if_pos (hf.trans hnm), prefix_cons_inj]
      exact ih (by omega)
    · rw [wholePieces, if_neg hf]
      exact nil_prefix

/-- The frames that are complete in a cut stream. -/
theorem wholePieces_eq_take :
    ∀ {k t : Nat}, k ≤ fs.length →
      (k = fs.length ∨ ∃ f, fs[k]? = some f ∧ t < f.length) →
        wholePieces fs ((fs.take k).flatten.length + t) = fs.take k := by
  induction fs with
  | nil =>
    intro k t _ _
    simp [wholePieces]
  | cons f fs ih =>
    intro k t hk hcut
    cases k with
    | zero =>
      -- the cut falls inside the first piece
      obtain h | ⟨g, hg, hlt⟩ := hcut
      · simp at h
      · have hfg : f = g := by simpa using hg
        subst hfg
        simp [wholePieces, Nat.not_le.mpr hlt]
    | succ k =>
      have hle : f.length ≤ ((f :: fs).take (k + 1)).flatten.length + t := by
        simp
        omega
      have hrest : ((f :: fs).take (k + 1)).flatten.length + t - f.length
          = (fs.take k).flatten.length + t := by
        simp
        omega
      rw [wholePieces, if_pos hle, hrest, take_succ_cons]
      congr 1
      apply ih (by simpa using hk)
      simpa using hcut

theorem length_le_flatten :
    ∀ fs : List (List α), (∀ f ∈ fs, f ≠ []) → fs.length ≤ fs.flatten.length
  | [], _ => Nat.le_refl 0
  | f :: fs, h => by
    have hf : 0 < f.length := length_pos_of_ne_nil (h f mem_cons_self)
    have ih := length_le_flatten fs (fun g hg => h g (mem_cons_of_mem _ hg))
    simp only [length_cons, flatten_cons, length_append]
    omega

theorem flatten_drop_take (fs : List (List α)) (k : Nat) :
    fs.flatten.drop (fs.take k).flatten.length = (fs.drop k).flatten := by
  conv_lhs => rw [← take_append_drop k fs]
  rw [List.flatten_append]
  simp

theorem flatten_split {i : Nat} (hi : i < fs.length) :
    fs.flatten = (fs.take i).flatten ++ (fs[i] ++ (fs.drop (i + 1)).flatten) := by
  conv_lhs => rw [← take_append_drop i fs]
  rw [drop_eq_getElem_cons hi, List.flatten_append, flatten_cons]

theorem getElem?_concat_some {l : List α} {a b : α} {i : Nat} :
    (l ++ [a])[i]? = some b ↔ l[i]? = some b ∨ (i = l.length ∧ a = b) := by
  rcases Nat.lt_trichotomy i l.length with hlt | rfl | hgt
  · rw [getElem?_append_left hlt]
    simp [Nat.ne_of_lt hlt]
  · simp
  · rw [getElem?_eq_none (by simp; omega), getElem?_eq_none (Nat.le_of_lt hgt)]
    simp [Nat.ne_of_gt hgt]

end Cut

/-! ## §3. Taking a stream apart. -/

section Framed

variable {α : Type*}

/-- A function that finds the whole frame at the front of a buffer: frames are
not empty, and what follows a frame does not change it. -/
structure FrameLen (frameLen : List α → Option Nat) : Prop where
  pos : ∀ {s n}, frameLen s = some n → 0 < n
  le : ∀ {s n}, frameLen s = some n → n ≤ s.length
  stable : ∀ {s n} (t : List α), frameLen s = some n → frameLen (s ++ t) = some n

/-- A stream taken apart into the whole frames at its front and the rest. -/
inductive Framed (frameLen : List α → Option Nat) : List α → List (List α) → List α → Prop where
  | stop {s} : frameLen s = none → Framed frameLen s [] s
  | frame {s n fs rest} : frameLen s = some n → Framed frameLen (s.drop n) fs rest →
      Framed frameLen s (s.take n :: fs) rest

namespace Framed

variable {frameLen : List α → Option Nat} {s t rest rest' : List α} {fs fs' : List (List α)}

theorem flatten_append (h : Framed frameLen s fs rest) : s = fs.flatten ++ rest := by
  induction h with
  | stop _ => rfl
  | @frame s n fs rest _ _ ih =>
    rw [flatten_cons, append_assoc, ← ih, take_append_drop]

theorem rest_none (h : Framed frameLen s fs rest) : frameLen rest = none := by
  induction h with
  | stop hn => exact hn
  | frame _ _ ih => exact ih

/-- There is one way to cut a stream into frames. -/
theorem unique (h : Framed frameLen s fs rest) (h' : Framed frameLen s fs' rest') :
    fs = fs' ∧ rest = rest' := by
  induction h generalizing fs' with
  | stop hn =>
    cases h' with
    | stop _ => exact ⟨rfl, rfl⟩
    | frame hs _ => rw [hn] at hs; cases hs
  | frame hs _ ih =>
    cases h' with
    | stop hn => rw [hs] at hn; cases hn
    | frame hs' hrest =>
      rw [hs] at hs'
      cases hs'
      obtain ⟨rfl, rfl⟩ := ih hrest
      exact ⟨rfl, rfl⟩

theorem exists_framed (hlen : FrameLen frameLen) (s : List α) :
    ∃ fs rest, Framed frameLen s fs rest := by
  induction hk : s.length using Nat.strongRecOn generalizing s with
  | _ k ih =>
    cases hs : frameLen s with
    | none => exact ⟨[], s, .stop hs⟩
    | some n =>
      have hpos := hlen.pos hs
      have hle := hlen.le hs
      obtain ⟨fs, rest, h⟩ := ih (s.drop n).length (by rw [length_drop]; omega) _ rfl
      exact ⟨_, rest, .frame hs h⟩

theorem append (hlen : FrameLen frameLen) (h : Framed frameLen s fs rest)
    (h' : Framed frameLen (rest ++ t) fs' rest') :
    Framed frameLen (s ++ t) (fs ++ fs') rest' := by
  induction h with
  | stop _ => exact h'
  | @frame s n fs rest hs _ ih =>
    have hle := hlen.le hs
    have hnext := Framed.frame (hlen.stable t hs)
      (by rw [drop_append_of_le_length hle]; exact ih h')
    rwa [take_append_of_le_length hle] at hnext

end Framed

end Framed

end Mile.Lib
