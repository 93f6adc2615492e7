import MessageKeys.Markup.Extraction
import MessageKeys.Proofs.Markup.Layout
import MessageKeys.Proofs.Text.Slice

/-!
# The spans of a document

A document can be written in one way only as marked parts and a tail that finishes no marker. Its
spans are these parts, each with the bytes that its marker occupies.
-/
namespace MessageKeys.Markup

variable {document front tail : Text} {parts : List Part}

/-- A text in which no marker opens, or the first that opens has no bracket after it, or no end mark
stands from that bracket on. -/
def Unfinished (tail : Text) : Prop :=
  ¬ openMark <:+: tail ∨
    ∃ before afterMark, tail = before ++ (openMark ++ afterMark) ∧ ¬ openMark <:+: before ∧
      (']' ∉ afterMark ∨
        ∃ key afterTag, afterMark = key ++ ']' :: afterTag ∧ ']' ∉ key ∧
          ¬ endMark <:+: ']' :: afterTag)

/-- A way to write a document: no mark stands in a part before the place where it is found, and the
tail finishes no marker. -/
structure Layout.Writes (layout : Layout) (document : Text) : Prop where
  parts : ∀ part ∈ layout.parts, part.WellFormed
  tail : Unfinished layout.tail
  toText : layout.toText = document

theorem endMark_infix_bracket_iff {text : Text} : endMark <:+: ']' :: text ↔ endMark <:+: text := by
  rw [List.infix_cons_iff, or_iff_right]
  rintro ⟨rest, hr⟩
  exact absurd (List.cons.inj hr).1 (by decide)

theorem closeBracket_infix_iff {text : Text} : closeBracket <:+: text ↔ ']' ∈ text :=
  List.singleton_infix_iff ']' text

theorem cut?_openMark_iff {text before after : Text} :
    text.cut? openMark = some (before, after) ↔
      text = before ++ (openMark ++ after) ∧ ¬ openMark <:+: before :=
  Text.cut?_eq_some_iff (c := '[') rfl (by decide)

theorem cut?_closeBracket_iff {text before after : Text} :
    text.cut? closeBracket = some (before, after) ↔ text = before ++ ']' :: after ∧ ']' ∉ before := by
  rw [Text.cut?_eq_some_iff (c := ']') rfl (by decide), closeBracket_infix_iff]
  rfl

/-- The search for the first marker ends without one exactly at such a tail. -/
theorem unfinished_iff : Unfinished tail ↔ firstPart? tail = none := by
  have hcut : Unfinished tail ↔ tail.cut? openMark = none ∨
      ∃ before afterMark, tail.cut? openMark = some (before, afterMark) ∧
        (afterMark.cut? closeBracket = none ∨
          ∃ key afterTag, afterMark.cut? closeBracket = some (key, afterTag) ∧
            afterTag.cut? endMark = none) := by
    simp only [Unfinished, cut?_openMark_iff, cut?_closeBracket_iff, endMark_infix_bracket_iff,
      closeBracket_infix_iff, Text.cut?_eq_none_iff, and_assoc]
  rw [hcut]
  cases hopen : tail.cut? openMark with
  | none => simp [firstPart?, hopen]
  | some opened =>
    obtain ⟨before, afterMark⟩ := opened
    cases hclose : afterMark.cut? closeBracket with
    | none => simp [firstPart?, hopen, hclose]
    | some closed =>
      obtain ⟨key, afterTag⟩ := closed
      cases hend : afterTag.cut? endMark <;> simp [firstPart?, hopen, hclose, hend]

/-- No other layout writes the same document. -/
theorem writes_iff {layout : Layout} : layout.Writes document ↔ layout = Layout.ofText document := by
  have htail : Unfinished layout.tail ↔ ¬ Finished layout.tail :=
    unfinished_iff.trans firstPart?_eq_none_iff
  rw [eq_comm, Layout.ofText_eq_iff]
  constructor
  · intro h
    exact ⟨⟨h.parts, htail.mp h.tail⟩, h.toText⟩
  · rintro ⟨h, ht⟩
    exact ⟨h.parts, htail.mpr h.tail, ht⟩

/-- The parts with all that stands in front of their markers, where `front` stands before the first
of them. -/
def placedFrom (front : Text) : List Part → List (Text × Part)
  | [] => []
  | part :: rest => (front ++ part.before, part) :: placedFrom (front ++ part.toText) rest

/-- Whether a span is that of a part whose marker stands behind `front`: its bytes are those of the
marker, and key and message are cut out between the marks. -/
structure Span.Covers (document front : Text) (part : Part) (span : Span) : Prop where
  start : span.start = front.toBytes.size
  marker : document.slice? span.start span.stop = some part.marker
  pieces : ∃ tagEnd textEnd,
    document.slice? (span.start + openMark.byteLength) tagEnd = some part.key ∧
      document.slice? (tagEnd + closeBracket.byteLength) textEnd = some part.body ∧
      span.stop = textEnd + endMark.byteLength
  key : span.key = part.key
  text : span.text = part.body.trim

theorem covers_of_front (part : Part) (back : Text)
    (hd : document = front ++ (part.marker ++ back)) :
    Span.Covers document front part
      ⟨front.byteLength, front.byteLength + part.marker.byteLength, part.key, part.text⟩ where
  start := (Text.size_toBytes front).symm
  marker := hd ▸ Text.slice?_append front part.marker back
  pieces := by
    have hmarker : front ++ (part.marker ++ back) = front ++ (openMark ++ (part.key ++
        (closeBracket ++ (part.body ++ (endMark ++ back))))) := by
      simp [Part.marker, tag]
    have hkey := Text.slice?_append (front ++ openMark) part.key
      (closeBracket ++ (part.body ++ (endMark ++ back)))
    have hbody := Text.slice?_append (front ++ openMark ++ part.key ++ closeBracket) part.body
      (endMark ++ back)
    simp only [Text.byteLength_append] at hkey hbody
    simp only [List.append_assoc, ← hmarker, ← hd] at hkey hbody
    refine ⟨_, _, hkey, hbody, ?_⟩
    simp only [Part.marker, tag, Text.byteLength_append, Nat.add_assoc]
  key := rfl
  text := rfl

theorem covers_spansFrom (hd : document = front ++ (parts.flatMap Part.toText ++ tail)) :
    List.Forall₂ (fun placed span => Span.Covers document placed.1 placed.2 span)
      (placedFrom front parts) (spansFrom front.byteLength parts) := by
  induction parts generalizing front with
  | nil => exact .nil
  | cons part rest ih =>
    have hmore : document = front ++ part.before ++
        (part.marker ++ (rest.flatMap Part.toText ++ tail)) := by
      simp [hd, Part.toText]
    refine .cons ?_ ?_
    · have hcovers := covers_of_front part _ hmore
      rwa [Text.byteLength_append] at hcovers
    · have hrest := @ih (front ++ part.toText) (by simp [hd])
      rwa [Part.toText, Text.byteLength_append, Text.byteLength_append, ← Nat.add_assoc] at hrest

/-- No span begins before the one in front of it has ended. -/
theorem pairwise_spansFrom (offset : Nat) (parts : List Part) :
    (spansFrom offset parts).Pairwise (fun a b => a.stop ≤ b.start) ∧
      ∀ span ∈ spansFrom offset parts, offset ≤ span.start ∧ span.start < span.stop := by
  induction parts generalizing offset with
  | nil => exact ⟨.nil, fun span hs => nomatch hs⟩
  | cons part rest ih =>
    have hlength : 0 < part.marker.byteLength := by
      have hopen : openMark.byteLength = 5 := rfl
      simp only [Part.marker, tag, Text.byteLength_append, hopen]
      omega
    obtain ⟨hpairs, hafter⟩ := ih (offset + part.before.byteLength + part.marker.byteLength)
    refine ⟨.cons (fun span hs => (hafter span hs).1) hpairs, fun span hs => ?_⟩
    rcases List.mem_cons.mp hs with rfl | hs
    · exact ⟨Nat.le_add_right _ _, Nat.lt_add_of_pos_right hlength⟩
    · obtain ⟨hstart, hstop⟩ := hafter span hs
      exact ⟨by omega, hstop⟩

/-- Every document is written in exactly one way as marked parts and a tail. Its spans are those of
the parts, one for each and in their order. The places at which a span cuts the document lie between
characters, and no span reaches into another. -/
theorem spans_cover_parts (document : Text) :
    ∃ layout : Layout, (∀ other : Layout, other.Writes document ↔ other = layout) ∧
      List.Forall₂ (fun placed span => Span.Covers document placed.1 placed.2 span)
        (placedFrom [] layout.parts) (spans document) ∧
      (spans document).Pairwise (fun a b => a.stop ≤ b.start) ∧
      ∀ span ∈ spans document, span.start < span.stop := by
  obtain ⟨hpairs, hspans⟩ := pairwise_spansFrom 0 (Layout.ofText document).parts
  refine ⟨Layout.ofText document, fun other => writes_iff, ?_, hpairs,
    fun span hs => (hspans span hs).2⟩
  exact @covers_spansFrom document [] _ _ (Layout.toText_ofText document).symm

end MessageKeys.Markup
