/-
  Mile.Ldb.SplitCommand
  ─────────────────────
  **SPLITTING A COMMAND** (`storage/ldb/LdbEngine.cpp`, `split_command`).

  A command is split at white space.  A quoted part ends at the next quote of its kind, and a
  backslash takes the meaning from the next byte, except between single quotes.
-/
import Mile.Lib.LittleEndian

namespace Mile.Ldb

open Lib List

/-! ## §1. The function. -/

abbrev backslash : UInt8 := 92

abbrev singleQuote : UInt8 := 39

abbrev doubleQuote : UInt8 := 34

/-- `isspace` in the C locale. -/
def isSpace (c : UInt8) : Bool := c ∈ [9, 10, 11, 12, 13, 32]

abbrev IsQuote (c : UInt8) : Prop := c = doubleQuote ∨ c = singleQuote

/-- The variables of the loop; `quoteChar` is 0 outside of quotes. -/
structure SplitState where
  strVec : List Bytes
  token : Bytes
  inEscape : Bool
  quoteChar : UInt8
  tokenAdd : Bool

def SplitState.append (st : SplitState) (c : UInt8) : SplitState :=
  { st with inEscape := false, token := st.token ++ [c], tokenAdd := false }

/-- The body of the loop. -/
def splitStep (st : SplitState) (c : UInt8) : SplitState :=
  if st.inEscape then st.append c
  else if c = backslash ∧ st.quoteChar ≠ singleQuote then { st with inEscape := true }
  else if IsQuote c ∧ st.quoteChar = 0 then { st with quoteChar := c, tokenAdd := false }
  else if IsQuote c ∧ c = st.quoteChar then { st with quoteChar := 0 }
  else if st.quoteChar = 0 ∧ isSpace c then
    if st.tokenAdd then st
    else { st with strVec := st.strVec ++ [st.token], token := [], tokenAdd := true }
  else st.append c

/-- `split_command`; the tokens go behind `strVec`. -/
def splitCommand (strVec : List Bytes) (cmd : Bytes) : Int × List Bytes :=
  let st := cmd.foldl splitStep ⟨strVec, [], false, 0, true⟩
  (if st.quoteChar ≠ 0 then -1 else 0,
    if st.tokenAdd then st.strVec else st.strVec ++ [st.token])

/-! ## §2. Quoting. -/

/-- A string between single quotes, or one that is not empty with a backslash in front of
every byte. -/
inductive Piece where
  | quoted (s : Bytes)
  | escaped (c : UInt8) (s : Bytes)

def Piece.value : Piece → Bytes
  | quoted s => s
  | escaped c s => c :: s

def quoteByte (c : UInt8) : Bytes :=
  if c = singleQuote then [singleQuote, backslash, singleQuote, singleQuote] else [c]

def Piece.text : Piece → Bytes
  | quoted s => singleQuote :: (s.flatMap quoteByte ++ [singleQuote])
  | escaped c s => (c :: s).flatMap fun c => [backslash, c]

/-- White space that is not empty. -/
structure White where
  first : { c // isSpace c = true }
  more : List { c // isSpace c = true }

def White.text (w : White) : Bytes := w.first.val :: w.more.map (·.val)

/-- The pieces with white space between them; what stands in front of the first one is left
out. -/
def joined : List (White × Piece) → Bytes
  | [] => []
  | (_, p) :: rest => p.text ++ rest.flatMap fun q => q.1.text ++ q.2.text

section Pieces

variable {vec : List Bytes} {token : Bytes} {c : UInt8}

theorem foldl_quoted (s : Bytes) :
    (s.flatMap quoteByte).foldl splitStep ⟨vec, token, false, singleQuote, false⟩ =
      ⟨vec, token ++ s, false, singleQuote, false⟩ := by
  induction s generalizing token with
  | nil => simp
  | cons c s ih =>
    have hbyte : (quoteByte c).foldl splitStep ⟨vec, token, false, singleQuote, false⟩ =
        ⟨vec, token ++ [c], false, singleQuote, false⟩ := by
      unfold quoteByte
      split_ifs with hc
      · rw [hc]
        rfl
      · simp [hc, splitStep, SplitState.append, show singleQuote ≠ 0 by decide]
    rw [flatMap_cons, foldl_append, hbyte, ih, append_assoc, singleton_append]

theorem foldl_escaped (s : Bytes) :
    (s.flatMap fun c => [backslash, c]).foldl splitStep ⟨vec, token, false, 0, false⟩ =
      ⟨vec, token ++ s, false, 0, false⟩ := by
  induction s generalizing token with
  | nil => simp
  | cons c s ih => exact (@ih (token ++ [c])).trans (by rw [append_assoc]; rfl)

theorem Piece.foldl_text (p : Piece) :
    p.text.foldl splitStep ⟨vec, [], false, 0, true⟩ = ⟨vec, p.value, false, 0, false⟩ := by
  cases p with
  | quoted s =>
    have hopen : splitStep ⟨vec, [], false, 0, true⟩ singleQuote =
      ⟨vec, [], false, singleQuote, false⟩ := rfl
    rw [Piece.text, foldl_cons, hopen, foldl_append, foldl_quoted]
    rfl
  | escaped c s => exact @foldl_escaped vec [c] s

theorem splitStep_white (hc : isSpace c = true) (add : Bool) :
    splitStep ⟨vec, token, false, 0, add⟩ c =
      if add then ⟨vec, token, false, 0, add⟩ else ⟨vec ++ [token], [], false, 0, true⟩ := by
  have hplain : c ≠ backslash ∧ ¬ IsQuote c := by
    have hcases := of_decide_eq_true hc
    simp only [mem_cons, not_mem_nil, or_false] at hcases
    rcases hcases with rfl | rfl | rfl | rfl | rfl | rfl <;> decide
  simp [splitStep, hplain, hc]

theorem White.foldl_text (w : White) :
    w.text.foldl splitStep ⟨vec, token, false, 0, false⟩ =
      ⟨vec ++ [token], [], false, 0, true⟩ := by
  rw [White.text, foldl_cons, splitStep_white w.first.2, foldl_map]
  -- no token is open any more
  exact foldl_fixed' (fun c : { c // isSpace c = true } => splitStep_white c.2 true) w.more

theorem foldl_rest (rest : List (White × Piece)) :
    ∃ vec' token', (rest.flatMap fun q => q.1.text ++ q.2.text).foldl splitStep
        ⟨vec, token, false, 0, false⟩ = ⟨vec', token', false, 0, false⟩ ∧
      vec' ++ [token'] = vec ++ token :: rest.map fun q => q.2.value := by
  induction rest generalizing vec token with
  | nil => exact ⟨vec, token, rfl, rfl⟩
  | cons q rest ih =>
    obtain ⟨vec', token', hfold, heq⟩ := @ih (vec ++ [token]) q.2.value
    refine ⟨vec', token', ?_, by rw [heq, append_assoc]; rfl⟩
    rw [flatMap_cons, foldl_append, foldl_append, White.foldl_text, Piece.foldl_text, hfold]

end Pieces

/-! ## §3. Quotes that are not closed. -/

/-- Text behind an opening quote `q` that does not close it; the flag is set behind a
backslash that takes the meaning from the next byte. -/
inductive Unclosed (q : UInt8) : Bool → Bytes → Prop
  | nil : Unclosed q false []
  | byte {t c} : Unclosed q false t → c ≠ q → (c = backslash → q = singleQuote) →
      Unclosed q false (t ++ [c])
  | escape {t} : Unclosed q false t → q ≠ singleQuote → Unclosed q true (t ++ [backslash])
  | escaped {t c} : Unclosed q true t → Unclosed q false (t ++ [c])

/-- Text in which every quote that is opened is closed. -/
inductive Balanced : Bool → Bytes → Prop
  | nil : Balanced false []
  | byte {s c} : Balanced false s → ¬ IsQuote c → c ≠ backslash → Balanced false (s ++ [c])
  | escape {s} : Balanced false s → Balanced true (s ++ [backslash])
  | escaped {s c} : Balanced true s → Balanced false (s ++ [c])
  | quoted {s q t} : Balanced false s → IsQuote q → Unclosed q false t →
      Balanced false (s ++ q :: (t ++ [q]))

/-- What a byte does to `quote_char` and `in_escape`. -/
def nextMark : UInt8 × Bool → UInt8 → UInt8 × Bool
  | (q, true), _ => (q, false)
  | (q, false), c =>
    if c = backslash ∧ q ≠ singleQuote then (q, true)
    else if IsQuote c ∧ q = 0 then (c, false)
    else if IsQuote c ∧ c = q then (0, false)
    else (q, false)

section Quotes

variable {q : UInt8} {e : Bool} {s t cmd : Bytes} {m : UInt8 × Bool}

theorem foldl_marks (st : SplitState) (cmd : Bytes) :
    cmd.foldl nextMark (st.quoteChar, st.inEscape) =
      ((cmd.foldl splitStep st).quoteChar, (cmd.foldl splitStep st).inEscape) := by
  refine foldl_hom (fun st : SplitState => (st.quoteChar, st.inEscape)) fun st c => ?_
  cases he : st.inEscape with
  | true => simp [nextMark, splitStep, SplitState.append, he]
  | false =>
    simp only [nextMark, splitStep, SplitState.append, he]
    split_ifs <;> simp_all

theorem IsQuote.ne (h : IsQuote q) : q ≠ 0 ∧ q ≠ backslash := by
  rcases h with rfl | rfl <;> decide

theorem Unclosed.foldl (h : Unclosed q e t) (hq : IsQuote q) :
    t.foldl nextMark (q, false) = (q, e) := by
  have hne := hq.ne.1
  induction h with
  | nil => rfl
  | byte _ hc hb ih => simp_all [nextMark]
  | escape _ hsq ih => simp [nextMark, ih, hsq]
  | escaped _ ih => simp [nextMark, ih]

theorem Balanced.foldl (h : Balanced e s) : s.foldl nextMark (0, false) = (0, e) := by
  induction h with
  | nil => rfl
  | byte _ hc hb ih => simp [nextMark, ih, hc, hb]
  | escape _ ih => rw [foldl_append, ih]; rfl
  | escaped _ ih => simp [nextMark, ih]
  | quoted _ hq ht ih => simp [nextMark, ih, hq, hq.ne, ht.foldl hq]

/-- A command is balanced, or balanced up to a quote that is not closed. -/
def Marked (m : UInt8 × Bool) (cmd : Bytes) : Prop :=
  m.1 = 0 ∧ Balanced m.2 cmd ∨
    IsQuote m.1 ∧ ∃ s t, cmd = s ++ m.1 :: t ∧ Balanced false s ∧ Unclosed m.1 m.2 t

/-- One more character of a command. -/
theorem Marked.next (h : Marked m cmd) (c : UInt8) : Marked (nextMark m c) (cmd ++ [c]) := by
  obtain ⟨q, e⟩ := m
  rcases h with ⟨hq, hs⟩ | ⟨hq, s, t, rfl, hs, ht⟩
  · obtain rfl : q = 0 := hq
    cases e with
    | true => exact .inl ⟨rfl, hs.escaped⟩
    | false =>
      simp only [nextMark]
      split_ifs with hb hc hc'
      · rw [hb.1]
        exact .inl ⟨rfl, hs.escape⟩
      · exact .inr ⟨hc.1, cmd, [], rfl, hs, .nil⟩
      · exact absurd hc'.2 hc'.1.ne.1
      · exact .inl ⟨rfl, hs.byte (fun h => hc ⟨h, trivial⟩) fun h => hb ⟨h, by decide⟩⟩
  · rw [append_assoc, cons_append]
    cases e with
    | true => exact .inr ⟨hq, s, _, rfl, hs, ht.escaped⟩
    | false =>
      simp only [nextMark]
      split_ifs with hb hc hc'
      · rw [hb.1]
        exact .inr ⟨hq, s, _, rfl, hs, ht.escape hb.2⟩
      · exact absurd hc.2 hq.ne.1
      · rw [hc'.2]
        exact .inl ⟨rfl, hs.quoted hq ht⟩
      · exact .inr ⟨hq, s, _, rfl, hs, ht.byte (fun h => hc' ⟨h ▸ hq, h⟩)
          fun h => by_contra fun hsq => hb ⟨h, hsq⟩⟩

theorem marked (cmd : Bytes) : Marked (cmd.foldl nextMark (0, false)) cmd := by
  induction cmd using reverseRecOn with
  | nil => exact .inl ⟨rfl, .nil⟩
  | append_singleton cmd c ih =>
    rw [foldl_append]
    exact ih.next c

theorem splitCommand_fails (vec : List Bytes) (cmd : Bytes) :
    (splitCommand vec cmd).1 = -1 ↔ (cmd.foldl nextMark (0, false)).1 ≠ 0 := by
  rw [foldl_marks ⟨vec, [], false, 0, true⟩]
  simp only [splitCommand]
  split_ifs with h <;> simp [h]

end Quotes

/-- **`split_command` inverts quoting**, and fails exactly if a quote that is opened is never
closed. -/
theorem split_command_inverts (vec : List Bytes) :
    (∀ pieces, splitCommand vec (joined pieces) = (0, vec ++ pieces.map fun q => q.2.value)) ∧
    ∀ cmd, (splitCommand vec cmd).1 = -1 ↔
      ∃ s q t e, cmd = s ++ q :: t ∧ Balanced false s ∧ IsQuote q ∧ Unclosed q e t := by
  refine ⟨fun pieces => ?_, fun cmd => ?_⟩
  · cases pieces with
    | nil => simp [splitCommand, joined]
    | cons p rest =>
      obtain ⟨vec', token', hfold, heq⟩ := @foldl_rest vec p.2.value rest
      simp [splitCommand, joined, foldl_append, Piece.foldl_text, hfold, heq]
  · rw [splitCommand_fails]
    constructor
    · intro hne
      obtain ⟨h0, -⟩ | ⟨hq, s, t, heq, hs, ht⟩ := marked cmd
      · exact absurd h0 hne
      · exact ⟨s, _, t, _, heq, hs, hq, ht⟩
    · rintro ⟨s, q, t, e, rfl, hs, hq, ht⟩
      have hopen : nextMark (0, false) q = (q, false) := by simp [nextMark, hq, hq.ne]
      rw [foldl_append, hs.foldl, foldl_cons, hopen, ht.foldl hq]
      exact hq.ne.1

end Mile.Ldb
