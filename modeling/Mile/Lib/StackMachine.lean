/-
  Mile.Lib.StackMachine
  ─────────────────────
  **EXPRESSIONS IN SUFFIX FORM.**

  A machine reads the items of an expression once with a stack of values.  Operands and operators
  may fail, and an operator may find too few values.
-/
import Mathlib

namespace Mile.Lib

open List

/-- An item of an expression in suffix form. -/
inductive Item (α β : Type) where
  | operand (a : α)
  | operator (o : β)
  deriving DecidableEq

/-- An expression. -/
inductive BinTree (α β : Type) where
  | leaf (a : α)
  | node (o : β) (l r : BinTree α β)

variable {α β γ ε : Type}

namespace BinTree

def items : BinTree α β → List (Item α β)
  | leaf a => [.operand a]
  | node o l r => l.items ++ (r.items ++ [.operator o])

def leaves : BinTree α β → List α
  | leaf a => [a]
  | node _ l r => l.leaves ++ r.leaves

end BinTree

/-! ## §1. The machine. -/

section Machine

variable (leaf : α → Except ε γ) (op : β → γ → γ → Except ε γ) (empty : ε)

def exec : List (Item α β) → List γ → Except ε (List γ)
  | [], stack => .ok stack
  | .operand a :: items, stack =>
    match leaf a with
    | .error e => .error e
    | .ok v => exec items (v :: stack)
  | .operator o :: items, right :: left :: stack =>
    match op o left right with
    | .error e => .error e
    | .ok v => exec items (v :: stack)
  | .operator _ :: _, _ => .error empty

def BinTree.eval : BinTree α β → Except ε γ
  | .leaf a => leaf a
  | .node o l r =>
    match l.eval with
    | .error e => .error e
    | .ok x =>
      match r.eval with
      | .error e => .error e
      | .ok y => op o x y

variable {leaf op empty}

/-- A postfix expression leaves its value. -/
theorem exec_items (t : BinTree α β) (rest : List (Item α β)) (stack : List γ) :
    exec leaf op empty (t.items ++ rest) stack =
      match t.eval leaf op with
      | .error e => .error e
      | .ok v => exec leaf op empty rest (v :: stack) := by
  induction t generalizing rest stack with
  | leaf a => rfl
  | node o l r ihl ihr =>
    simp only [BinTree.items, append_assoc, ihl, BinTree.eval]
    cases l.eval leaf op with
    | error e => rfl
    | ok x =>
      simp only [ihr]
      cases r.eval leaf op with
      | error e => rfl
      | ok y => rfl

/-- The machine on two pieces of items. -/
theorem exec_append (items rest : List (Item α β)) (stack : List γ) :
    exec leaf op empty (items ++ rest) stack =
      match exec leaf op empty items stack with
      | .error e => .error e
      | .ok stack' => exec leaf op empty rest stack' := by
  induction items generalizing stack with
  | nil => rfl
  | cons item items ih =>
    cases item with
    | operand a =>
      simp only [cons_append, exec]
      cases leaf a with
      | error e => rfl
      | ok v => exact ih _
    | operator o =>
      match stack with
      | right :: left :: stack =>
        simp only [cons_append, exec]
        cases op o left right with
        | error e => rfl
        | ok v => exact ih _
      | [] => rfl
      | [_] => rfl

end Machine

/-! ## §2. Which lists are expressions. -/

def parseItems : List (Item α β) → List (BinTree α β) → Except Unit (List (BinTree α β)) :=
  exec (fun a => .ok (.leaf a)) (fun o l r => .ok (.node o l r)) ()

theorem parseItems_items (t : BinTree α β) : parseItems t.items [] = .ok [t] := by
  have heval : t.eval (fun a => .ok (.leaf a)) (fun o l r => .ok (.node o l r)) =
      (.ok t : Except Unit (BinTree α β)) := by
    induction t with
    | leaf a => rfl
    | node o l r ihl ihr => simp only [BinTree.eval, ihl, ihr]
  have hexec : parseItems (t.items ++ []) [] = _ := exec_items t [] []
  rw [append_nil, heval] at hexec
  exact hexec

variable {items : List (Item α β)}

/-- What is parsed is what was read. -/
theorem parseItems_sound {stack stack' : List (BinTree α β)}
    (h : parseItems items stack = .ok stack') :
    stack.reverse.flatMap BinTree.items ++ items = stack'.reverse.flatMap BinTree.items := by
  induction items generalizing stack with
  | nil =>
    cases h
    rw [append_nil]
  | cons item items ih =>
    cases item with
    | operand a =>
      rw [← ih h]
      simp [BinTree.items]
    | operator o =>
      match stack with
      | right :: left :: stack =>
        rw [← ih h]
        simp [BinTree.items]
      | [] => cases h
      | [_] => cases h

variable {leaf : α → Except ε γ} {op : β → γ → γ → Except ε γ}

/-- What can be run can be parsed. -/
theorem parseItems_of_exec {empty : ε} {stack stack' : List γ} (trees : List (BinTree α β))
    (hlen : trees.length = stack.length) (h : exec leaf op empty items stack = .ok stack') :
    ∃ trees', parseItems items trees = .ok trees' ∧ trees'.length = stack'.length := by
  induction items generalizing stack trees with
  | nil =>
    cases h
    exact ⟨trees, rfl, hlen⟩
  | cons item items ih =>
    cases item with
    | operand a =>
      simp only [exec] at h
      split at h
      · cases h
      · exact ih (.leaf a :: trees) (congrArg (· + 1) hlen) h
    | operator o =>
      match stack, trees with
      | right :: left :: stack, r :: l :: trees =>
        simp only [exec] at h
        split at h
        · cases h
        · exact ih (.node o l r :: trees) (by simpa using hlen) h
      | [], _ => cases h
      | [_], _ => cases h
      | _ :: _ :: _, [] => cases hlen
      | _ :: _ :: _, [_] => cases hlen

/-- **A run that leaves one value** has read the items of an expression. -/
theorem items_of_exec {empty : ε} {v : γ} (h : exec leaf op empty items [] = .ok [v]) :
    ∃ t : BinTree α β, items = t.items := by
  have hnil : ([] : List (BinTree α β)).length = ([] : List γ).length := rfl
  obtain ⟨trees, hparse, hlen⟩ := parseItems_of_exec [] hnil h
  obtain ⟨t, rfl⟩ := length_eq_one_iff.mp hlen
  have hsound := parseItems_sound hparse
  simp only [reverse_nil, flatMap_nil, nil_append, reverse_singleton, flatMap_singleton] at hsound
  exact ⟨t, hsound⟩

/-! ## §3. Operators that do not fail. -/

section Total

variable {I : γ → Prop} (hleaf : ∀ a v, leaf a = .ok v → I v)
  (hop : ∀ o x y, I x → I y → ∃ v, op o x y = .ok v ∧ I v) {empty : ε}

include hleaf hop

/-- A run gets to its end exactly if it never has too few values and no operand fails. -/
theorem exec_ok_iff {stack : List γ} (trees : List (BinTree α β)) (hstack : ∀ v ∈ stack, I v)
    (hlen : trees.length = stack.length) :
    (∃ stack', exec leaf op empty items stack = .ok stack') ↔
      (∃ trees', parseItems items trees = .ok trees') ∧
        ∀ a, .operand a ∈ items → ∃ v, leaf a = .ok v := by
  induction items generalizing stack trees with
  | nil => exact iff_of_true ⟨stack, rfl⟩ ⟨⟨trees, rfl⟩, fun a ha => absurd ha not_mem_nil⟩
  | cons item items ih =>
    cases item with
    | operand a =>
      simp only [exec, parseItems, mem_cons, Item.operand.injEq, forall_eq_or_imp]
      cases ha : leaf a with
      | error e => simp
      | ok v =>
        have hiff := ih (.leaf a :: trees) (forall_mem_cons.mpr ⟨hleaf a v ha, hstack⟩)
          (congrArg (· + 1) hlen)
        simpa [parseItems] using hiff
    | operator o =>
      match stack, trees with
      | right :: left :: stack, r :: l :: trees =>
        rw [forall_mem_cons, forall_mem_cons] at hstack
        obtain ⟨v, hv, hI⟩ := hop o left right hstack.2.1 hstack.1
        have hiff := ih (.node o l r :: trees) (forall_mem_cons.mpr ⟨hI, hstack.2.2⟩)
          (by simpa using hlen)
        simpa [exec, parseItems, hv] using hiff
      | [], [] => simp [exec, parseItems]
      | [_], [_] => simp [exec, parseItems]
      | [], _ :: _ => cases hlen
      | [_], [] => cases hlen
      | [_], _ :: _ :: _ => simp at hlen
      | _ :: _ :: _, [] => cases hlen
      | _ :: _ :: _, [_] => simp at hlen

/-- A run fails as the first operand that fails, unless it has too few values before. -/
theorem exec_error_iff {e : ε} (hne : e ≠ empty) {stack : List γ} (hstack : ∀ v ∈ stack, I v) :
    exec leaf op empty items stack = .error e ↔
      ∃ pre a post stack', items = pre ++ .operand a :: post ∧
        exec leaf op empty pre stack = .ok stack' ∧ leaf a = .error e := by
  constructor
  · intro h
    induction items generalizing stack with
    | nil => cases h
    | cons item items ih =>
      cases item with
      | operand a =>
        simp only [exec] at h
        cases ha : leaf a with
        | error e' =>
          rw [ha] at h
          cases h
          exact ⟨[], a, items, stack, rfl, rfl, ha⟩
        | ok v =>
          rw [ha] at h
          obtain ⟨pre, b, post, stack', rfl, hpre, hb⟩ :=
            ih (forall_mem_cons.mpr ⟨hleaf a v ha, hstack⟩) h
          exact ⟨.operand a :: pre, b, post, stack', rfl, by simp only [exec, ha, hpre], hb⟩
      | operator o =>
        match stack with
        | right :: left :: stack =>
          rw [forall_mem_cons, forall_mem_cons] at hstack
          obtain ⟨v, hv, hI⟩ := hop o left right hstack.2.1 hstack.1
          simp only [exec, hv] at h
          obtain ⟨pre, b, post, stack', rfl, hpre, hb⟩ :=
            ih (forall_mem_cons.mpr ⟨hI, hstack.2.2⟩) h
          exact ⟨.operator o :: pre, b, post, stack', rfl, by simp only [exec, hv, hpre], hb⟩
        | [] =>
          cases h
          exact absurd rfl hne
        | [_] =>
          cases h
          exact absurd rfl hne
  · rintro ⟨pre, a, post, stack', rfl, hpre, ha⟩
    rw [exec_append, hpre]
    simp only [exec, ha]

end Total

end Mile.Lib
