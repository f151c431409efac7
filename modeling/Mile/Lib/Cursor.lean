/-
  Mile.Lib.Cursor
  ───────────────
  **READING A BYTE STRING FROM THE FRONT.**

  A `Cursor α` looks at the bytes still unread, returns a value and what is
  left, or runs past the end.  Two judgements carry the proofs about one:

      Reads p w a     p reads a off the bytes w, whatever follows them
      Spends p n      if p returns a, it consumed at least n a bytes
-/
import Mile.Lib.LittleEndian

namespace Mile.Lib

open List

/-! ## §1. Cursors. -/

abbrev Cursor (α : Type) := StateT Bytes Option α

def getByte : Cursor UInt8
  | [] => none
  | b :: s => some (b, s)

/-- The next `n` bytes. -/
def getBytes (n : Nat) : Cursor Bytes := fun s =>
  if n ≤ s.length then some (s.take n, s.drop n) else none

/-- The next `k`-byte word, low byte first. -/
def getWord (k : Nat) : Cursor Nat := do
  let w ← getBytes k
  return leNat w

/-- `n` values read one after another. -/
def getTimes {α : Type} (p : Cursor α) : Nat → Cursor (List α)
  | 0 => pure []
  | n + 1 => do
    let a ← p
    let as ← getTimes p n
    return a :: as

def Cursor.on {α : Type} (p : Cursor α) (s : Bytes) : Option α := (p.run s).map Prod.fst

/-! ## §2. What a cursor reads off given bytes. -/

section Judgements

variable {α β : Type}

/-- The cursor reads `a` off `w`, whatever stands behind it. -/
def Reads (p : Cursor α) (w : Bytes) (a : α) : Prop := ∀ s, p.run (w ++ s) = some (a, s)

/-- A cursor that returns `a` consumed at least `n a` bytes. -/
def Spends (p : Cursor α) (n : α → Nat) : Prop :=
  ∀ s a s', p.run s = some (a, s') → n a + s'.length ≤ s.length

variable {p : Cursor α} {w : Bytes} {a : α} {f : α → Cursor β} {s : Bytes}

theorem Reads.on (h : Reads p w a) : p.on w = some a := by
  unfold Cursor.on
  have := h []
  rw [append_nil] at this
  rw [this]
  rfl

theorem reads_pure (a : α) : Reads (pure a) [] a := fun _ => rfl

theorem reads_lift {o : Option α} (h : o = some a) : Reads (StateT.lift o) [] a := by
  subst h
  exact fun _ => rfl

theorem Reads.bind {v : Bytes} {b : β}
    (hp : Reads p v a) (hf : Reads (f a) w b) : Reads (p >>= f) (v ++ w) b := by
  intro s
  rw [StateT.run_bind, append_assoc, hp]
  exact hf s

theorem Reads.map (h : Reads p w a) (g : α → β) : Reads (p >>= fun a => pure (g a)) w (g a) := by
  have hbind := h.bind (f := fun a => pure (g a)) (reads_pure (g a))
  rwa [append_nil] at hbind

theorem run_bind_eq_some {s' : Bytes} {b : β} (h : (p >>= f).run s = some (b, s')) :
    ∃ a s₁, p.run s = some (a, s₁) ∧ (f a).run s₁ = some (b, s') := by
  rw [StateT.run_bind] at h
  obtain ⟨⟨a, s₁⟩, hfirst, hrest⟩ := Option.bind_eq_some_iff.mp h
  exact ⟨a, s₁, hfirst, hrest⟩

theorem reads_getByte (b : UInt8) : Reads getByte [b] b := fun _ => rfl

theorem reads_getBytes {n : Nat} (h : w.length = n) : Reads (getBytes n) w w := by
  intro s
  subst h
  show (if w.length ≤ (w ++ s).length then _ else _) = _
  rw [if_pos (by simp), take_left, drop_left]

theorem reads_getWord {k n : Nat} (h : n < 256 ^ k) : Reads (getWord k) (leBytes k n) n := by
  have hread := (reads_getBytes (leBytes_length k n)).map leNat
  rwa [leNat_leBytes_of_lt h] at hread

theorem reads_getTimes {put : α → Bytes} (as : List α) (h : ∀ a ∈ as, Reads p (put a) a) :
    Reads (getTimes p as.length) (as.map put).flatten as := by
  induction as with
  | nil => exact reads_pure []
  | cons a as ih =>
    have hrest := (ih (fun x hx => h x (mem_cons_of_mem _ hx))).bind
      (f := fun xs => pure (a :: xs)) (reads_pure _)
    rw [append_nil] at hrest
    exact (h a mem_cons_self).bind hrest

/-! ## §3. What a cursor consumes. -/

variable {n : α → Nat}

theorem spends_pure (h : n a = 0) : Spends (pure a) n := by
  intro s b s' hrun
  cases hrun
  omega

theorem spends_lift (o : Option α) (h : ∀ a, o = some a → n a = 0) : Spends (StateT.lift o) n := by
  intro s a s' hrun
  cases o with
  | none => cases hrun
  | some x =>
    cases hrun
    have := h _ rfl
    omega

theorem Spends.bind {k : β → Nat} (hp : Spends p n) (hf : ∀ a, Spends (f a) (fun b => k b - n a)) :
    Spends (p >>= f) k := by
  intro s b s' hrun
  obtain ⟨a, s₁, hfirst, hrest⟩ := run_bind_eq_some hrun
  have h₁ := hp s a s₁ hfirst
  have h₂ := hf a s₁ b s' hrest
  simp only at h₂
  omega

theorem spends_getByte : Spends getByte (fun _ => 1) := by
  intro s a s' hrun
  cases s with
  | nil => cases hrun
  | cons b s =>
    cases hrun
    simp [Nat.add_comm]

theorem getBytes_eq_some {n : Nat} {s' : Bytes} (h : (getBytes n).run s = some (w, s')) :
    w.length = n ∧ s = w ++ s' := by
  change (if n ≤ s.length then some (s.take n, s.drop n) else none) = _ at h
  split at h
  · next hn =>
      cases h
      exact ⟨by simpa using hn, (take_append_drop n s).symm⟩
  · cases h

theorem spends_getBytes (n : Nat) : Spends (getBytes n) (fun w => max n w.length) := by
  intro s w s' hrun
  obtain ⟨hlen, rfl⟩ := getBytes_eq_some hrun
  simp [hlen]

theorem spends_getWord (k : Nat) : Spends (getWord k) (fun _ => k) :=
  (spends_getBytes k).bind (fun w => spends_pure (by omega))

theorem spends_getTimes (hp : Spends p n) (k : Nat) :
    Spends (getTimes p k) (fun as => (as.map n).sum) := by
  induction k with
  | zero => exact spends_pure rfl
  | succ k ih =>
    refine hp.bind fun a => ?_
    refine ih.bind fun as => spends_pure ?_
    simp

theorem Spends.on (hp : Spends p n) (h : p.on s = some a) : n a ≤ s.length := by
  unfold Cursor.on at h
  obtain ⟨⟨b, s'⟩, hrun, rfl⟩ := Option.map_eq_some_iff.mp h
  have := hp s b s' hrun
  exact le_trans (Nat.le_add_right _ _) this

end Judgements

/-! ## §4. Copying pieces into a block. -/

/-- `memcpy(buf + off, src, |src|)`: what falls behind the block's end is
not part of the block. -/
def memcpyAt (buf : Bytes) (off : Nat) (src : Bytes) : Bytes :=
  buf.take off ++ (src.take (buf.length - off) ++ buf.drop (off + src.length))

/-- Pieces copied one behind the other from `off` on. -/
def copyAll : Bytes → Nat → List Bytes → Bytes
  | buf, _, [] => buf
  | buf, off, p :: ps => copyAll (memcpyAt buf off p) (off + p.length) ps

@[simp] theorem memcpyAt_length (buf : Bytes) (off : Nat) (src : Bytes) :
    (memcpyAt buf off src).length = buf.length := by
  unfold memcpyAt
  simp only [length_append, length_take, length_drop]
  omega

@[simp] theorem copyAll_length (ps : List Bytes) (buf : Bytes) (off : Nat) :
    (copyAll buf off ps).length = buf.length := by
  induction ps generalizing buf off with
  | nil => rfl
  | cons p ps ih => rw [copyAll, ih, memcpyAt_length]

/-- Pieces that fit stand one behind the other. -/
theorem copyAll_fits (ps : List Bytes) (buf : Bytes) (off : Nat)
    (h : off + ps.flatten.length ≤ buf.length) :
    copyAll buf off ps = buf.take off ++ (ps.flatten ++ buf.drop (off + ps.flatten.length)) := by
  induction ps generalizing buf off with
  | nil => simp [copyAll]
  | cons p ps ih =>
    rw [flatten_cons, length_append] at h
    have hoff : (buf.take off).length = off := by rw [length_take]; omega
    have hp : p.take (buf.length - off) = p := take_of_length_le (by omega)
    -- the copied piece joins the part of the block that is already written
    have htake : (memcpyAt buf off p).take (off + p.length) = buf.take off ++ p := by
      unfold memcpyAt
      rw [hp, ← append_assoc, take_left' (by simp; omega)]
    have hdrop : (memcpyAt buf off p).drop (off + p.length + ps.flatten.length)
        = buf.drop (off + (p ++ ps.flatten).length) := by
      unfold memcpyAt
      rw [hp, ← append_assoc, ← drop_drop, drop_left' (by simp; omega),
        drop_drop, length_append, Nat.add_assoc]
    rw [copyAll, ih _ _ (by rw [memcpyAt_length]; omega), htake, hdrop, flatten_cons]
    simp only [append_assoc]

theorem copyAll_exact (ps : List Bytes) (buf : Bytes) (h : ps.flatten.length = buf.length) :
    copyAll buf 0 ps = ps.flatten := by
  rw [copyAll_fits ps buf 0 (by omega), h]
  simp

end Mile.Lib
