/-!
# Text

Text is a list of characters, so that every rule about it is a recursion and every law an
induction. The one search everything else is built on is `cut?`, which splits a text at the first
place where a given mark stands.
-/
namespace MessageKeys

abbrev Text := List Char

namespace Text

/-- What stands before the first occurrence of `mark` and what follows that occurrence. -/
def cut? (text mark : Text) : Option (Text × Text) :=
  if mark.isPrefixOf text then some ([], text.drop mark.length)
  else match text with
    | [] => none
    | c :: rest => (cut? rest mark).map fun (before, after) => (c :: before, after)

theorem cut?_eq {mark text before after : Text} (h : text.cut? mark = some (before, after)) :
    text = before ++ mark ++ after := by
  induction text generalizing before after with
  | nil =>
    unfold cut? at h
    split at h
    · next hp =>
      obtain ⟨rfl, rfl⟩ := by simpa using h
      simpa using hp
    · simp at h
  | cons c rest ih =>
    unfold cut? at h
    split at h
    · next hp =>
      obtain ⟨rfl, rfl⟩ := by simpa using h
      obtain ⟨t, ht⟩ := List.isPrefixOf_iff_prefix.1 hp
      rw [← ht]
      simp
    · obtain ⟨⟨b, a⟩, hb, heq⟩ := Option.map_eq_some_iff.1 h
      obtain ⟨rfl, rfl⟩ := by simpa using heq
      simp [ih hb]

/-- Cutting at a mark that has a character leaves a shorter rest. -/
theorem length_lt_of_cut? {mark text before after : Text} (hm : mark ≠ [])
    (h : text.cut? mark = some (before, after)) : after.length < text.length := by
  have := List.length_pos_iff.2 hm
  simp [cut?_eq h]
  omega

/-- Puts `new` in the place of the first occurrence of `old`. -/
def replaceFirst (text old new : Text) : Text :=
  match text.cut? old with
  | some (before, after) => before ++ new ++ after
  | none => text

/-- The stretches between the separators; there is always one more than there are separators. -/
def pieces (separator : Char) : Text → List Text
  | [] => [[]]
  | c :: rest =>
    if c = separator then [] :: pieces separator rest
    else match pieces separator rest with
      | [] => [[c]]
      | piece :: more => (c :: piece) :: more

/-- Writes the stretches one after the other with the separator between them. -/
def join (separator : Text) (parts : List Text) : Text :=
  separator.intercalate parts

def ofNat (n : Nat) : Text :=
  Nat.toDigits 10 n

/-- The same letters, upper and lower case of the twenty-six ASCII letters not told apart. -/
def sameLetters (a b : Text) : Bool :=
  a.map Char.toLower == b.map Char.toLower

/-- Fills up with blanks on the left. -/
def padLeft (width : Nat) (text : Text) : Text :=
  List.replicate (width - text.length) ' ' ++ text

/-- Fills up with blanks on the right. -/
def padRight (width : Nat) (text : Text) : Text :=
  text ++ List.replicate (width - text.length) ' '

end Text
end MessageKeys
