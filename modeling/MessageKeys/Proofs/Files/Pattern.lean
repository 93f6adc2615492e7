import Mathlib.Data.List.Infix
import MessageKeys.Files.Pattern
import MessageKeys.Proofs.Files.Path

/-!
# Patterns and the paths that agree with them

A path agrees with a pattern if its steps agree with those of the pattern one by one, where the step
for any folders stands for one or more of them. A pattern without classes and without such a step
agrees with itself, taken as a path: each wildcard in it may stand for itself.
-/
namespace MessageKeys.Pattern

variable {c : Char} {text more whole name : Text} {rests : List Text} {names : List Text}
  {token : Token}

/-- The token that a character is read as outside a class. -/
def Token.ofChar (c : Char) : Token :=
  if c = '*' then .anySequence else if c = '?' then .anyChar else .char c

theorem readTokens?_cons (hc : c ≠ '[') (hstars : c = '*' → text.head? ≠ some '*') (count : Nat)
    (previous : Option Char) :
    readTokens? (count + 1) previous (c :: text) =
      (readTokens? count (some c) text).map (Token.ofChar c :: ·) := by
  by_cases hstar : c = '*'
  · subst hstar
    have hone : ∀ rest, text = '*' :: rest → False := by
      rintro rest rfl
      exact hstars rfl rfl
    have htwo : ∀ rest, text = '*' :: '*' :: rest → False := fun rest => hone _
    rw [readTokens?]
    · rfl
    · exact htwo
    · exact hone
  · by_cases hquestion : c = '?'
    · subst hquestion
      rw [readTokens?]
      rfl
    · rw [readTokens?, Token.ofChar, if_neg hstar, if_neg hquestion]
      all_goals simp [hstar, hquestion, hc]

/-- A text without classes and without two stars in a row. -/
structure Plain (text : Text) : Prop where
  no_class : '[' ∉ text
  no_folders : ¬ ['*', '*'] <:+: text

instance (text : Text) : Decidable (Plain text) :=
  decidable_of_iff ('[' ∉ text ∧ ¬ ['*', '*'] <:+: text)
    ⟨fun h => ⟨h.1, h.2⟩, fun h => ⟨h.no_class, h.no_folders⟩⟩

theorem Plain.of_infix (h : Plain whole) (hi : text <:+: whole) : Plain text :=
  ⟨fun hc => h.no_class (hi.subset hc), fun hs => h.no_folders (hs.trans hi)⟩

theorem Plain.readTokens? (h : Plain text) (previous : Option Char) {count : Nat}
    (hc : text.length ≤ count) :
    Pattern.readTokens? count previous text = some (text.map Token.ofChar) := by
  induction text generalizing previous count with
  | nil => cases count <;> rfl
  | cons c text ih =>
    obtain ⟨count, rfl⟩ : ∃ more, count = more + 1 := Nat.exists_eq_succ_of_ne_zero (by simp at hc; omega)
    have hclass : c ≠ '[' := by
      rintro rfl
      exact h.no_class List.mem_cons_self
    have hstars : c = '*' → text.head? ≠ some '*' := by
      rintro rfl hh
      obtain ⟨rest, rfl⟩ := List.head?_eq_some_iff.mp hh
      exact h.no_folders ⟨[], rest, rfl⟩
    rw [readTokens?_cons hclass hstars, ih (h.of_infix (List.suffix_cons c text).isInfix) (some c)
      (Nat.le_of_succ_le_succ hc)]
    rfl

theorem Plain.tokens? (h : Plain text) : tokens? text = some (text.map Token.ofChar) :=
  h.readTokens? none le_rfl

/-- How the steps of a path agree with the steps of a pattern. Where a step of the pattern does not
spell a name, the step of the path has to be one that stands in a folder. -/
inductive Agrees : List (List Token) → List Text → Prop where
  | done : Agrees [] []
  | spelled {step rest name names} (hs : literal? step = some name) (ha : Agrees rest names) :
    Agrees (step :: rest) (name :: names)
  | matched {step rest name names} (hw : literal? step = none) (hr : isRecursive step = false)
    (hm : matchesName step name = true) (hn : Path.IsName name) (ha : Agrees rest names) :
    Agrees (step :: rest) (name :: names)
  /-- One folder more, with others below it. -/
  | entered {step rest name names} (hr : isRecursive step = true) (hn : Path.IsName name)
    (hmore : names ≠ []) (ha : Agrees (step :: rest) names) : Agrees (step :: rest) (name :: names)
  /-- The folders end, and the next step stands in the last of them. -/
  | left {step next rest name names} (hr : isRecursive step = true) (hs : isRecursive next = false)
    (hm : matchesName next name = true) (hn : Path.IsName name) (ha : Agrees rest names) :
    Agrees (step :: next :: rest) (name :: names)
  /-- Several steps for any folders are as good as one. -/
  | merged {step next rest names} (hr : isRecursive step = true) (hs : isRecursive next = true)
    (ha : Agrees (step :: rest) names) : Agrees (step :: next :: rest) names

theorem Agrees.ne_nil {steps : List (List Token)} (h : Agrees steps names) (hn : names ≠ []) :
    steps ≠ [] := by
  rintro rfl
  cases h
  exact hn rfl

/-- The steps of a text that is read as a path, less the slash that an absolute one begins with. -/
def ownSteps (text : Text) : List Text :=
  Text.pieces '/' (if text.head? = some '/' then text.drop 1 else text)

theorem isInfix_of_mem_ownSteps (h : name ∈ ownSteps text) : name <:+: text := by
  refine (Text.isInfix_of_mem_pieces h).trans ?_
  split
  · exact (List.drop_suffix 1 text).isInfix
  · exact List.infix_rfl

end MessageKeys.Pattern
