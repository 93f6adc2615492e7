import MessageKeys.Proofs.Files.Pattern
import MessageKeys.Proofs.Files.Steps
import MessageKeys.Proofs.Looking

/-!
# What a pattern finds

A search goes through the steps of a pattern and through the folders at once. If a path agrees with
the pattern and leads to something, then the search reaches that place: from each folder on the way
it goes on to the next, and the names under which it does so lead where the path does. Only a path
that has an empty step right behind the dots at its beginning gets lost.
-/
namespace MessageKeys

variable {world : World} {path : Path} {location next target : Location} {name : Text}
  {names : List Text}

namespace Pattern

variable {step next : List Token} {rest steps : List (List Token)}

/-- What is found at a path once the steps in front are done: the path itself, or what the other
steps find below it. -/
def reached (world : World) (depth : Nat) (steps : List (List Token)) (path : Path) : List Path :=
  ((if steps.isEmpty then found false path else below false depth steps path).run world).1

@[simp] theorem reached_nil (world : World) (depth : Nat) (path : Path) :
    reached world depth [] path = [path] :=
  rfl

/-- What is written in front of a name in a folder. -/
def front (path : Path) : Text :=
  if path.sameAs ⟨['.']⟩ then []
  else if path.text.getLast? = some '/' then path.text
  else path.text ++ ['/']

/-- Whether an empty step stands right behind the dots at the beginning. -/
def EmptyBehindDots (names : List Text) : Prop :=
  (names.dropWhile (· == ['.'])).head? = some []

instance (names : List Text) : Decidable (EmptyBehindDots names) :=
  inferInstanceAs (Decidable (_ = _))

/-- How many bytes steps take that are written one behind the other. -/
def spelledLength : List Text → Nat
  | [] => 0
  | name :: names => name.byteLength + 1 + spelledLength names

/-- The pieces of a text take as many bytes as the text and one slash more. -/
theorem spelledLength_pieces (text : Text) :
    spelledLength (text.pieces '/') = text.byteLength + 1 := by
  induction text with
  | nil => rfl
  | cons c text ih =>
    by_cases hc : c = '/'
    · subst hc
      rw [Text.pieces_cons_self, spelledLength, ih]
      change 0 + 1 + (Text.byteLength text + 1) = 1 + Text.byteLength text + 1
      omega
    · obtain ⟨piece, more, ht, hct⟩ := Text.pieces_cons_of_ne hc text
      rw [ht, spelledLength] at ih
      rw [hct, spelledLength]
      change c.utf8Size + Text.byteLength piece + 1 + _ = c.utf8Size + Text.byteLength text + 1
      omega

/-- What a search has to know of the path that it has reached, to go on with these names: it leads to
the location, and the names fit behind it. -/
structure Leads (world : World) (names : List Text) (path : Path) (location : Location) : Prop where
  locate : world.tree.locate world.working path = .ok location
  no_slash : ∀ name ∈ names, '/' ∉ name
  no_nul : ∀ name ∈ names, '\x00' ∉ name
  room : (front path).byteLength + spelledLength names ≤ Tree.longestPath + 1
  not_lost : path.sameAs ⟨['.']⟩ = true → ¬ EmptyBehindDots names

/-- A path that finds itself if it is read as a pattern: the pattern can be read, the path agrees with
it, and no step is lost behind the dots at its beginning. -/
structure FindsItself (written : Text) : Prop where
  agrees : ∃ pattern, parse? written = some pattern ∧ Agrees pattern.steps (ownSteps written)
  not_lost : written.head? = some '/' ∨ ¬ EmptyBehindDots (ownSteps written)

/-- The steps of a pattern's own path lead from where the search begins to where the path leads. -/
theorem foldlM_ownSteps {written : Text}
    (h : world.tree.locate world.working ⟨written⟩ = .ok target) :
    (ownSteps written).foldlM world.tree.step
      (if written.head? = some '/' then [] else world.working) = .ok target := by
  obtain ⟨-, hfollow⟩ := Tree.locate_eq_ok_iff.mp h
  unfold ownSteps
  rw [Tree.follow] at hfollow
  by_cases hroot : written.head? = some '/'
  · obtain ⟨rest, rfl⟩ := List.head?_eq_some_iff.mp hroot
    rw [Text.pieces_cons_self] at hfollow
    obtain ⟨inner, hstep, hrest⟩ := Tree.foldlM_cons_eq_ok hfollow
    obtain rfl : inner = [] := (Tree.step_eq_ok hstep).2
    rwa [if_pos hroot, if_pos hroot]
  · rw [if_neg hroot, if_neg hroot]
    simpa [Path.isAbsolute, hroot] using hfollow

/-- A path's own steps fit behind the place where the search begins. -/
theorem FindsItself.leads {written : Text} (h : FindsItself written)
    (hl : world.tree.locate world.working ⟨written⟩ = .ok target) :
    Leads world (ownSteps written) ⟨if written.head? = some '/' then ['/'] else ['.']⟩
      (if written.head? = some '/' then [] else world.working) := by
  obtain ⟨hcheck, -⟩ := Tree.locate_eq_ok_iff.mp hl
  obtain ⟨hnul, hlong, -⟩ := Tree.checkPath_eq_ok_iff.mp hcheck
  have hslashes : ∀ name ∈ ownSteps written, '/' ∉ name := fun name hn => Text.separator_not_mem hn
  have hnuls : ∀ name ∈ ownSteps written, '\x00' ∉ name := fun name hn hc =>
    hnul ((isInfix_of_mem_ownSteps hn).subset hc)
  have hlength : spelledLength (ownSteps written) =
      Text.byteLength (if written.head? = some '/' then written.drop 1 else written) + 1 :=
    spelledLength_pieces _
  have hsteps := foldlM_ownSteps hl
  have hfolder := Tree.folder_of_foldlM_step (Text.pieces_ne_nil _ _) hsteps
  by_cases hroot : written.head? = some '/'
  · obtain ⟨rest, rfl⟩ := List.head?_eq_some_iff.mp hroot
    rw [if_pos hroot] at hlength ⊢
    rw [if_pos hroot]
    refine ⟨rfl, hslashes, hnuls, ?_, fun hdot => by cases hdot⟩
    have hfront : (front ⟨['/']⟩).byteLength = 1 := rfl
    have hwhole : 1 + Text.byteLength rest ≤ Tree.longestPath := hlong
    have hrest : spelledLength (ownSteps ('/' :: rest)) = Text.byteLength rest + 1 := hlength
    omega
  · rw [if_neg hroot] at hlength hfolder ⊢
    rw [if_neg hroot]
    refine ⟨?_, hslashes, hnuls, ?_, fun _ => h.not_lost.resolve_left hroot⟩
    · have hstep : world.tree.step world.working ['.'] = .ok world.working := by
        rw [Tree.step, hfolder]
        rfl
      exact Tree.locate_name hstep (by decide) (by decide) (by decide) (by decide)
    · have hfront : (front ⟨['.']⟩).byteLength = 0 := rfl
      have hwhole : Text.byteLength written ≤ Tree.longestPath := hlong
      omega

end Pattern

end MessageKeys
