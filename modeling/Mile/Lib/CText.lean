/-
  Mile.Lib.CText
  ──────────────
  **DECIMAL TEXT AS THE C LIBRARY READS AND WRITES IT.**

  Texts are lists of characters.

  Printing then parsing is the identity below `2 ^ 63`, and a printed number
  is a single token.
-/
import Mathlib

namespace Mile.Lib

open List

/-! ## §1. The functions. -/

/-- `isspace` in the C locale. -/
def isSpace (c : Char) : Bool :=
  c = ' ' || c = '\x0c' || c = '\n' || c = '\r' || c = '\t' || c = '\x0b'

/-- All tokens `strtok_r` returns for one text. -/
def strtok (delim : Char → Bool) (s : List Char) : List (List Char) :=
  (s.splitOnP delim).filter (· ≠ [])

def digitsValue (s : List Char) : Int :=
  (Nat.ofDigitChars 10 (s.takeWhile Char.isDigit) 0 : Nat)

/-- `strtoll(s, NULL, 10)`. -/
def strtoll (s : List Char) : Int :=
  match s.dropWhile isSpace with
  | '-' :: ds => max (-2 ^ 63) (-digitsValue ds)
  | '+' :: ds => min (2 ^ 63 - 1) (digitsValue ds)
  | ds => min (2 ^ 63 - 1) (digitsValue ds)

/-- `printf("%llu", n)`. -/
def printU (n : Nat) : List Char := Nat.toDigits 10 n

/-! ## §2. Printed numbers. -/

theorem isDigit_of_mem_printU {n : Nat} {c : Char} (h : c ∈ printU n) : c.isDigit = true :=
  Nat.isDigit_of_mem_toDigits (b := 10) (by decide) (by decide) h

theorem printU_ne_nil (n : Nat) : printU n ≠ [] := Nat.toDigits_ne_nil

theorem isDigit_classes {c : Char} (h : c.isDigit = true) :
    isSpace c = false ∧ c ≠ '-' ∧ c ≠ '+' ∧ c ≠ '#' := by
  refine ⟨?_, ?_, ?_, ?_⟩
  · by_contra hs
    simp only [isSpace, Bool.not_eq_false, Bool.or_eq_true, decide_eq_true_eq] at hs
    rcases hs with ((((rfl | rfl) | rfl) | rfl) | rfl) | rfl <;> revert h <;> decide
  all_goals
    rintro rfl
    revert h
    decide

theorem digitsValue_printU (n : Nat) : digitsValue (printU n) = n := by
  have htake : (printU n).takeWhile Char.isDigit = printU n :=
    takeWhile_eq_self_iff.mpr (fun c hc => isDigit_of_mem_printU hc)
  rw [digitsValue, htake, printU, Nat.ofDigitChars_ten_toDigits]

/-- **Parsing a printed number** gives it back, saturated at the end of
`long long`. -/
theorem strtoll_printU_min (n : Nat) : strtoll (printU n) = min (2 ^ 63 - 1) (n : Int) := by
  have hdrop : (printU n).dropWhile isSpace = printU n := by
    cases hp : printU n with
    | nil => rfl
    | cons c cs =>
      have hc := isDigit_of_mem_printU (n := n) (c := c) (by rw [hp]; exact mem_cons_self)
      rw [dropWhile_cons_of_neg (by simp [(isDigit_classes hc).1])]
  have hval := digitsValue_printU n
  unfold strtoll
  rw [hdrop]
  split
  · next ds heq =>
      have hc := isDigit_of_mem_printU (n := n) (c := '-') (by rw [heq]; exact mem_cons_self)
      exact absurd rfl (isDigit_classes hc).2.1
  · next ds heq =>
      have hc := isDigit_of_mem_printU (n := n) (c := '+') (by rw [heq]; exact mem_cons_self)
      exact absurd rfl (isDigit_classes hc).2.2.1
  · rw [hval]

theorem strtoll_printU {n : Nat} (hn : n < 2 ^ 63) : strtoll (printU n) = n := by
  rw [strtoll_printU_min]
  omega

/-! ## §3. Tokens and lines. -/

theorem strtok_cons {delim : Char → Bool} {word : List Char} (hne : word ≠ [])
    (hword : ∀ c ∈ word, delim c = false) {sep : Char} (hsep : delim sep = true)
    (rest : List Char) :
    strtok delim (word ++ sep :: rest) = word :: strtok delim rest := by
  unfold strtok
  rw [splitOnP_append_cons_of_forall_mem hword sep hsep, filter_cons_of_pos (by simpa)]

theorem strtok_single {delim : Char → Bool} {word : List Char} (hne : word ≠ [])
    (hword : ∀ c ∈ word, delim c = false) : strtok delim word = [word] := by
  unfold strtok
  rw [splitOnP_eq_singleton hword, filter_cons_of_pos (by simpa)]
  rfl

theorem splitOnP_lines {p : Char → Bool} {sep : Char} (hsep : p sep = true) :
    ∀ lines : List (List Char), (∀ l ∈ lines, ∀ c ∈ l, p c = false) →
      ((lines.map (· ++ [sep])).flatten).splitOnP p = lines ++ [[]]
  | [], _ => by simp
  | l :: ls, h => by
    have ih := splitOnP_lines hsep ls (fun m hm => h m (mem_cons_of_mem _ hm))
    rw [map_cons, flatten_cons, append_assoc, singleton_append,
      splitOnP_append_cons_of_forall_mem (h l mem_cons_self) sep hsep, ih]
    rfl

end Mile.Lib
