import MessageKeys.Text.Blank
import MessageKeys.Text.Bytes

/-!
# Marked documents

A document marks a message as `[msg:key]text[/msg]`. Reading a document lays it out as the marked
parts, each with the plain text in front of it, and the tail after the last of them. The tail
begins a marker at most if that marker is never finished: a marker without its `]` or its
`[/msg]` ends the reading. Writing the layout gives the document back.
-/
namespace MessageKeys.Markup

def openMark : Text := "[msg:".toList

def closeBracket : Text := [']']

def endMark : Text := "[/msg]".toList

/-- The opening tag of a key. -/
def tag (key : Text) : Text :=
  openMark ++ key ++ closeBracket

theorem tag_ne_nil (key : Text) : tag key ≠ [] := by
  have : openMark ≠ [] := by decide
  simp [tag, this]

/-- A marked message and the plain text in front of it, as they stand in the document. -/
structure Part where
  before : Text
  key : Text
  body : Text
  deriving DecidableEq, Repr

namespace Part

/-- The marker as it stands in the document, without the plain text in front. -/
def marker (part : Part) : Text :=
  tag part.key ++ part.body ++ endMark

def toText (part : Part) : Text :=
  part.before ++ part.marker

/-- The message itself: white space around it does not count. -/
def text (part : Part) : Text :=
  part.body.trim

end Part

/-- The first finished marker of a text, if its first marker is finished, and what follows. -/
def firstPart? (text : Text) : Option (Part × Text) := do
  let (before, afterMark) ← text.cut? openMark
  let (key, afterTag) ← afterMark.cut? closeBracket
  let (body, rest) ← afterTag.cut? endMark
  return (⟨before, key, body⟩, rest)

theorem firstPart?_eq {text rest : Text} {part : Part} (h : firstPart? text = some (part, rest)) :
    text = part.toText ++ rest := by
  simp only [firstPart?, bind, Option.bind_eq_some_iff, pure, Option.some.injEq, Prod.mk.injEq,
    Prod.exists] at h
  obtain ⟨before, afterMark, hb, key, afterTag, hk, body, rest', ht, hp, hr⟩ := h
  subst hp hr
  rw [Text.cut?_eq hb, Text.cut?_eq hk, Text.cut?_eq ht]
  simp [Part.toText, Part.marker, tag]

theorem length_lt_of_firstPart? {text rest : Text} {part : Part}
    (h : firstPart? text = some (part, rest)) : rest.length < text.length := by
  have : endMark.length = 6 := rfl
  simp only [firstPart?_eq h, Part.toText, Part.marker, List.length_append]
  omega

/-- A document taken apart: its marked parts in order, and what follows the last of them. -/
structure Layout where
  parts : List Part
  tail : Text
  deriving DecidableEq, Repr

namespace Layout

def ofText (document : Text) : Layout :=
  match h : firstPart? document with
  | some (part, rest) =>
    have := length_lt_of_firstPart? h
    let more := ofText rest
    ⟨part :: more.parts, more.tail⟩
  | none => ⟨[], document⟩
termination_by document.length

def toText (layout : Layout) : Text :=
  layout.parts.flatMap Part.toText ++ layout.tail

theorem toText_ofText (document : Text) : (ofText document).toText = document := by
  induction document using ofText.induct with
  | case1 document part rest h _ ih =>
    rw [ofText]
    split
    · next part' rest' h' =>
      obtain ⟨rfl, rfl⟩ := by simpa [h] using h'
      simpa [toText, firstPart?_eq h] using ih
    · next h' => simp [h] at h'
  | case2 document h =>
    rw [ofText]
    split
    · next h' => simp [h] at h'
    · simp [toText]

end Layout

end MessageKeys.Markup
