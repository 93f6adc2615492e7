import MessageKeys.Markup.Extraction
import MessageKeys.Proofs.Markup.Layout

/-!
# Documents with text added behind them

A finished marker is finished whatever stands behind it, so the spans of a document stay when text is
added. What follows the last of them is read on together with the added text, and a marker that was
left open there may be finished by it. Where nothing there can begin a marker, the added text has the
spans that it has alone, moved by the bytes in front of it.
-/
namespace MessageKeys.Markup

open Text (Clear)

/-- The same marker with so many bytes more in front of it. -/
def Span.shift (bytes : Nat) (span : Span) : Span :=
  { span with start := bytes + span.start, stop := bytes + span.stop }

theorem spansFrom_add (bytes offset : Nat) (parts : List Part) :
    spansFrom (bytes + offset) parts = (spansFrom offset parts).map (Span.shift bytes) := by
  induction parts generalizing offset with
  | nil => rfl
  | cons part rest ih =>
    simp only [spansFrom, List.map_cons, Span.shift, Nat.add_assoc, ih]

theorem spansFrom_append (offset : Nat) (front back : List Part) :
    spansFrom offset (front ++ back) = spansFrom offset front ++
      spansFrom (offset + Text.byteLength (front.flatMap Part.toText)) back := by
  induction front generalizing offset with
  | nil => rfl
  | cons part rest ih =>
    simp only [List.cons_append, spansFrom, ih, List.flatMap_cons, Part.toText,
      Text.byteLength_append, Nat.add_assoc]

/-- Text in which no marker begins only moves the spans of what follows it. -/
theorem spansFrom_ofText_append {front rest : Text} (h : Clear openMark front rest) (offset : Nat) :
    spansFrom offset (Layout.ofText (front ++ rest)).parts =
      spansFrom (offset + front.byteLength) (Layout.ofText rest).parts := by
  have hfirst := firstPart?_append h
  cases hrest : firstPart? rest with
  | none =>
    rw [hrest, Option.map_none] at hfirst
    rw [Layout.ofText_of_none hfirst, Layout.ofText_of_none hrest]
    rfl
  | some found =>
    obtain ⟨part, more⟩ := found
    rw [hrest, Option.map_some] at hfirst
    rw [Layout.ofText_of_some hfirst, Layout.ofText_of_some hrest]
    simp only [spansFrom, Text.byteLength_append, Part.marker, Part.text, Nat.add_assoc]

/-- The spans of a document are a beginning of its spans with text behind it; and if no bracket opens
after the last of them, the others are the spans of that text, moved by the bytes of the document. -/
theorem spans_append (document more : Text) :
    spans document <+: spans (document ++ more) ∧
      ('[' ∉ (Layout.ofText document).tail →
        spans (document ++ more) =
          spans document ++ (spans more).map (Span.shift document.byteLength)) := by
  let tail := (Layout.ofText document).tail
  let length := Text.byteLength ((Layout.ofText document).parts.flatMap Part.toText)
  have hall : spans (document ++ more) =
      spans document ++ spansFrom length (Layout.ofText (tail ++ more)).parts := by
    rw [spans, Layout.ofText_append, spansFrom_append, Nat.zero_add]
    rfl
  refine ⟨⟨_, hall.symm⟩, fun hopen => ?_⟩
  have hclear : Clear openMark tail more := Text.clear_of_head_not_mem rfl hopen
  have hlength : document.byteLength = length + tail.byteLength := by
    conv => lhs; rw [← Layout.toText_ofText document]
    exact Text.byteLength_append _ _
  rw [hall, spansFrom_ofText_append hclear, ← hlength, spans, spans, ← spansFrom_add, Nat.add_zero]

/-- Letters of two bytes, and a marker that is not finished in the text that follows. -/
theorem spans_append_pages :
    let document : Text := "é [msg:a]ü[/msg] ]ß".toList
    let more : Text := "msg:ä] [msg:b]ö[/msg][msg:c".toList
    '[' ∉ (Layout.ofText document).tail ∧
      spans (document ++ more) = spans document ++ (spans more).map (Span.shift document.byteLength) ∧
      (spans (document ++ more)).length = 2 := by
  intro document more
  have hopen : '[' ∉ (Layout.ofText document).tail := by decide +kernel
  exact ⟨hopen, (spans_append document more).2 hopen, by decide +kernel⟩

/-- A marker can open at the end of one text and be finished by the next. -/
example :
    (spans "[msg:a]x[/msg][ms".toList).length = 1 ∧ (spans "g:b]y[/msg]".toList).length = 0 ∧
      (spans ("[msg:a]x[/msg][ms".toList ++ "g:b]y[/msg]".toList)).length = 2 := by
  decide +kernel

end MessageKeys.Markup
