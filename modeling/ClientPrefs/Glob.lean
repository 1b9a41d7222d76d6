import Mathlib.Data.List.Infix
import Mathlib.Tactic.Common

/-!
# Patterns with wildcards

Patterns over any alphabet: a symbol stands for itself, `any` for one symbol, `star` for any
text.
-/
namespace ClientPrefs.Glob

variable {α : Type*}

inductive Token (α : Type*)
  | symbol (a : α)
  | any
  | star
  deriving DecidableEq, Repr

def matchesText [DecidableEq α] : List (Token α) → List α → Bool
  | [], text => text.isEmpty
  | .star :: pattern, text => text.tails.any (matchesText pattern)
  | .any :: _, [] => false
  | .any :: pattern, _ :: text => matchesText pattern text
  | .symbol _ :: _, [] => false
  | .symbol a :: pattern, b :: text => decide (a = b) && matchesText pattern text

variable [DecidableEq α] {p q : List (Token α)} {text stem : List α} {a : α}

@[simp] lemma matches_nil : matchesText ([] : List (Token α)) text = true ↔ text = [] :=
  List.isEmpty_iff

lemma matches_star : matchesText (.star :: p) text = true ↔
    ∃ before after, before ++ after = text ∧ matchesText p after = true := by
  simp only [matchesText, List.any_eq_true, List.mem_tails]
  constructor
  · rintro ⟨after, ⟨before, htext⟩, h⟩
    exact ⟨before, after, htext, h⟩
  · rintro ⟨before, after, htext, h⟩
    exact ⟨after, ⟨before, htext⟩, h⟩

lemma matches_any : matchesText (.any :: p) text = true ↔
    ∃ b after, text = b :: after ∧ matchesText p after = true := by
  cases text with
  | nil => simp [matchesText]
  | cons b text => simp [matchesText]

lemma matches_symbol : matchesText (.symbol a :: p) text = true ↔
    ∃ after, text = a :: after ∧ matchesText p after = true := by
  cases text with
  | nil => simp [matchesText]
  | cons b text =>
    simp only [matchesText, Bool.and_eq_true, decide_eq_true_eq]
    constructor
    · rintro ⟨rfl, h⟩
      exact ⟨text, rfl, h⟩
    · rintro ⟨after, htext, h⟩
      obtain ⟨rfl, rfl⟩ := List.cons.inj htext
      exact ⟨rfl, h⟩

/-- The rule of composition. -/
theorem matches_append : matchesText (p ++ q) text = true ↔
    ∃ before after, before ++ after = text ∧ matchesText p before = true ∧
      matchesText q after = true := by
  induction p generalizing text with
  | nil => simp
  | cons token p ih =>
    rw [List.cons_append]
    cases token with
    | symbol a =>
      simp only [matches_symbol, ih]
      constructor
      · rintro ⟨_, rfl, before, after, rfl, hp, hq⟩
        exact ⟨a :: before, after, rfl, ⟨before, rfl, hp⟩, hq⟩
      · rintro ⟨_, after, rfl, ⟨before, rfl, hp⟩, hq⟩
        exact ⟨before ++ after, rfl, before, after, rfl, hp, hq⟩
    | any =>
      simp only [matches_any, ih]
      constructor
      · rintro ⟨b, _, rfl, before, after, rfl, hp, hq⟩
        exact ⟨b :: before, after, rfl, ⟨b, before, rfl, hp⟩, hq⟩
      · rintro ⟨_, after, rfl, ⟨b, before, rfl, hp⟩, hq⟩
        exact ⟨b, before ++ after, rfl, before, after, rfl, hp, hq⟩
    | star =>
      simp only [matches_star, ih]
      constructor
      · rintro ⟨skipped, _, rfl, before, after, rfl, hp, hq⟩
        exact ⟨skipped ++ before, after, List.append_assoc _ _ _, ⟨skipped, before, rfl, hp⟩, hq⟩
      · rintro ⟨_, after, rfl, ⟨skipped, before, rfl, hp⟩, hq⟩
        exact ⟨skipped, before ++ after, (List.append_assoc _ _ _).symm, before, after, rfl, hp, hq⟩

lemma matches_symbols : matchesText (stem.map .symbol) text = true ↔ text = stem := by
  induction stem generalizing text with
  | nil => exact matches_nil
  | cons a stem ih => simp [matches_symbol, ih]

/-- A text with a final star is matched by what begins with the text. -/
theorem matches_stem_star :
    matchesText (stem.map .symbol ++ [.star]) text = true ↔ stem <+: text := by
  simp only [matches_append, matches_symbols, matches_star, matches_nil]
  constructor
  · rintro ⟨before, after, rfl, rfl, _⟩
    exact List.prefix_append _ _
  · rintro ⟨after, rfl⟩
    exact ⟨stem, after, rfl, rfl, after, [], List.append_nil _, rfl⟩

end ClientPrefs.Glob
