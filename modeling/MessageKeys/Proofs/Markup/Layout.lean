import Mathlib.Data.List.Infix
import MessageKeys.Markup.Layout
import MessageKeys.Proofs.Text.Cut

/-!
# Layouts and the documents they are read from

A layout whose pieces hold no mark before their time is read back from its own text, and reading
gives no other layouts. So a change to a document can be described by what it does to the parts.
A document has a finished marker exactly if the three marks stand in it one after the other.
-/
namespace MessageKeys.Markup

open Text (Clear)

variable {text rest key before body : Text}

theorem openMark_ne_nil : openMark ≠ [] := by decide

theorem endMark_ne_nil : endMark ≠ [] := by decide

theorem not_blank_of_mem_openMark {c : Char} (h : c ∈ openMark) : isBlank c = false := by
  have ho : openMark = ['[', 'm', 's', 'g', ':'] := rfl
  rw [ho] at h
  simp only [List.mem_cons, List.not_mem_nil, or_false] at h
  rcases h with rfl | rfl | rfl | rfl | rfl <;> rfl

theorem bracket_not_mem_openMark : ']' ∉ openMark := by decide

theorem bracket_not_mem_dropLast_endMark : ']' ∉ endMark.dropLast := by decide

theorem openMark_prefix_tag (key : Text) : openMark <+: tag key :=
  ⟨key ++ closeBracket, by simp [tag]⟩

theorem head?_tag_append (key rest : Text) : (tag key ++ rest).head? = some '[' := rfl

theorem head?_endMark_append (rest : Text) : (endMark ++ rest).head? = some '[' := rfl

/-- A text that ends with a bracket, or nothing. No mark reaches over its end. -/
def Closed (text : Text) : Prop :=
  ∀ c ∈ text.getLast?, c = ']'

theorem closed_nil : Closed [] := by simp [Closed]

theorem closed_tag (key : Text) : Closed (tag key) := by simp [Closed, tag, closeBracket]

theorem closed_append_endMark (text : Text) : Closed (text ++ endMark) := by
  rw [show endMark = "[/msg".toList ++ [']'] from rfl, ← List.append_assoc]
  simp [Closed]

theorem Closed.of_cons {c : Char} (h : Closed (c :: text)) : Closed text := by
  cases text with
  | nil => exact closed_nil
  | cons d text => simpa [Closed] using h

theorem Closed.of_suffix {back : Text} (h : Closed text) (hb : back <:+ text) : Closed back := by
  induction text with
  | nil => simpa [List.suffix_nil.mp hb] using closed_nil
  | cons c text ih =>
    rcases List.suffix_cons_iff.mp hb with rfl | hb
    · exact h
    · exact ih h.of_cons hb

theorem count_bracket_tag (hk : ']' ∉ key) : (tag key).count ']' = 1 := by
  have ho : openMark.count ']' = 0 := rfl
  simp [tag, closeBracket, ho, List.count_eq_zero.mpr hk]

theorem Closed.eq_nil_of_count_append {extra : Text} (h : Closed (text ++ extra))
    (hn : (text ++ extra).count ']' = text.count ']') : extra = [] := by
  rcases List.eq_nil_or_concat extra with rfl | ⟨front, last, rfl⟩
  · rfl
  · obtain rfl : last = ']' := h last (by simp [← List.append_assoc])
    simp only [List.concat_eq_append, List.count_append, List.count_singleton_self] at hn
    omega

/-- Two closed beginnings of one text with as many brackets are the same. -/
theorem Closed.eq_of_append_eq {a b more : Text} (ha : Closed a) (hb : Closed b)
    (hn : a.count ']' = b.count ']') (h : a ++ rest = b ++ more) : a = b ∧ rest = more := by
  rcases List.append_eq_append_iff.mp h with ⟨extra, rfl, rfl⟩ | ⟨extra, rfl, rfl⟩
  · obtain rfl := hb.eq_nil_of_count_append hn.symm
    simp
  · obtain rfl := ha.eq_nil_of_count_append hn
    simp

theorem clear_before (h : ¬ openMark <:+: before) : Clear openMark before (tag key ++ rest) :=
  Text.clear_of_head h fun c hc => by
    obtain rfl := Option.some.inj ((head?_tag_append key rest).symm.trans hc)
    decide

theorem clear_key (h : ']' ∉ key) : Clear closeBracket key rest :=
  Text.clear_of_head_not_mem rfl h

theorem clear_body (h : ¬ endMark <:+: body) : Clear endMark body (endMark ++ rest) :=
  Text.clear_of_head h fun c hc => by
    obtain rfl := Option.some.inj ((head?_endMark_append rest).symm.trans hc)
    decide

theorem clear_of_closed {mark : Text} (hc : Closed text) (hm : ']' ∉ mark.dropLast)
    (h : ¬ mark <:+: text) : Clear mark text rest :=
  Text.clear_of_last h fun c hl => (hc c hl).symm ▸ hm

theorem dropLast_tag (key : Text) : (tag key).dropLast = openMark ++ key := by
  rw [tag, List.dropLast_append_of_ne_nil (by simp [closeBracket])]
  simp [closeBracket]

theorem clear_tag (hk : ']' ∉ key) (hc : Closed text) (h : ¬ tag key <:+: text) :
    Clear (tag key) text rest := by
  refine clear_of_closed hc ?_ h
  rw [dropLast_tag]
  simp [hk, bracket_not_mem_openMark]

namespace Part

/-- A part as the reading gives it: no mark stands in it earlier than where it is found. -/
structure WellFormed (part : Part) : Prop where
  before : ¬ openMark <:+: part.before
  key : ']' ∉ part.key
  body : ¬ endMark <:+: part.body

theorem toText_append (part : Part) (rest : Text) :
    part.toText ++ rest = part.before ++ (tag part.key ++ (part.body ++ (endMark ++ rest))) := by
  simp [toText, marker]

end Part

theorem firstPart?_toText_append {part : Part} (h : part.WellFormed) :
    firstPart? (part.toText ++ rest) = some (part, rest) := by
  have hb : (part.toText ++ rest).cut? openMark =
      some (part.before, part.key ++ (closeBracket ++ (part.body ++ (endMark ++ rest)))) := by
    rw [Part.toText_append, tag, List.append_assoc, List.append_assoc]
    apply Text.cut?_of_clear
    simpa [tag] using @clear_before _ part.key part.before h.before
  simp only [firstPart?, hb, Text.cut?_of_clear (clear_key h.key),
    Text.cut?_of_clear (clear_body h.body), bind, Option.bind_some, pure]

theorem wellFormed_of_firstPart? {part : Part} (h : firstPart? text = some (part, rest)) :
    part.WellFormed := by
  simp only [firstPart?, bind, Option.bind_eq_some_iff, pure, Option.some.injEq, Prod.mk.injEq,
    Prod.exists] at h
  obtain ⟨before, afterMark, hb, key, afterTag, hk, body, rest', ht, rfl, -⟩ := h
  refine ⟨Text.not_infix_of_cut? openMark_ne_nil hb, ?_, Text.not_infix_of_cut? endMark_ne_nil ht⟩
  have := Text.not_infix_of_cut? (by simp [closeBracket]) hk
  simpa [closeBracket, List.singleton_infix_iff] using this

/-- A text in which no marker begins stands in front of the first marked part of what follows. -/
theorem firstPart?_append (h : Clear openMark text rest) :
    firstPart? (text ++ rest) =
      (firstPart? rest).map fun (part, more) => ({ part with before := text ++ part.before }, more) := by
  simp only [firstPart?, Text.cut?_append h]
  cases rest.cut? openMark with
  | none => rfl
  | some opened =>
    obtain ⟨before, afterMark⟩ := opened
    cases hclose : afterMark.cut? closeBracket with
    | none => simp [hclose]
    | some closed =>
      obtain ⟨key, afterTag⟩ := closed
      cases hend : afterTag.cut? endMark <;> simp [hclose, hend]

/-- A finished marker is finished whatever stands behind it. -/
theorem firstPart?_append_right {part : Part} (h : firstPart? text = some (part, rest)) (more : Text) :
    firstPart? (text ++ more) = some (part, rest ++ more) := by
  simp only [firstPart?, bind, Option.bind_eq_some_iff, pure, Option.some.injEq, Prod.mk.injEq,
    Prod.exists] at h
  obtain ⟨before, afterMark, hb, key, afterTag, hk, body, _, ht, rfl, rfl⟩ := h
  simp only [firstPart?, Text.cut?_append_right hb, Text.cut?_append_right hk,
    Text.cut?_append_right ht, bind, Option.bind_some, pure]

/-- A bracket stands in the text and an end mark somewhere after it. -/
def Ends (text : Text) : Prop :=
  ∃ afterTag, ']' :: afterTag <:+ text ∧ endMark <:+: afterTag

/-- The three marks of a marker stand in the text one after the other. -/
def Finished (text : Text) : Prop :=
  ∃ afterMark, openMark ++ afterMark <:+ text ∧ Ends afterMark

theorem Ends.of_suffix {back : Text} (h : Ends back) (hb : back <:+ text) : Ends text := by
  obtain ⟨afterTag, ht, he⟩ := h
  exact ⟨afterTag, ht.trans hb, he⟩

/-- After the first bracket an end mark has to stand. -/
theorem ends_append_iff (hk : ']' ∉ key) : Ends (key ++ ']' :: rest) ↔ endMark <:+: rest := by
  constructor
  · rintro ⟨afterTag, ht, he⟩
    induction key with
    | nil =>
      rcases List.suffix_cons_iff.mp ht with heq | ht
      · exact (List.cons.inj heq).2 ▸ he
      · exact he.trans ((List.suffix_cons _ _).trans ht).isInfix
    | cons c key ih =>
      rw [List.mem_cons, not_or] at hk
      rcases List.suffix_cons_iff.mp ht with heq | ht
      · exact absurd (List.cons.inj heq).1 hk.1
      · exact ih hk.2 ht
  · intro he
    exact ⟨rest, List.suffix_append key _, he⟩

/-- The first occurrence leaves at least as much of the text as any other. -/
theorem cut?_of_suffix {mark after : Text} (h : mark ++ after <:+ text) :
    ∃ before more, text.cut? mark = some (before, more) ∧ after <:+ more := by
  induction text with
  | nil =>
    obtain ⟨rfl, rfl⟩ := by simpa using h
    exact ⟨[], [], by simp [Text.cut?_of_begins], by simp⟩
  | cons c text ih =>
    by_cases hp : mark <+: c :: text
    · refine ⟨[], _, Text.cut?_of_begins hp, ?_⟩
      obtain ⟨more, hm⟩ := hp
      have hl := h.length_le
      simp only [← hm, List.length_append] at hl
      rw [← hm, List.drop_left]
      exact List.suffix_of_suffix_length_le ((List.suffix_append mark after).trans h)
        (hm ▸ List.suffix_append mark more) (by omega)
    · rcases List.suffix_cons_iff.mp h with he | h
      · exact absurd ⟨after, he⟩ hp
      · obtain ⟨before, more, hc, hs⟩ := ih h
        exact ⟨c :: before, more, by simp [Text.cut?_cons_of_not_begins hp, hc], hs⟩

theorem firstPart?_isSome_iff : (firstPart? text).isSome ↔ Finished text := by
  constructor
  · intro h
    obtain ⟨⟨part, rest⟩, hp⟩ := Option.isSome_iff_exists.mp h
    have he := firstPart?_eq hp
    rw [Part.toText_append, tag] at he
    refine ⟨part.key ++ ']' :: (part.body ++ (endMark ++ rest)), ⟨part.before, ?_⟩,
      (ends_append_iff (wellFormed_of_firstPart? hp).key).mpr ⟨part.body, rest, by simp⟩⟩
    simp [he, closeBracket]
  · rintro ⟨afterMark, hm, afterTag, ht, he⟩
    obtain ⟨before, more, hb, hs⟩ := cut?_of_suffix hm
    have ht' : closeBracket ++ afterTag <:+ more := ht.trans hs
    obtain ⟨key, more', hk, hs'⟩ := cut?_of_suffix ht'
    have hend : more'.cut? endMark ≠ none := by
      rw [ne_eq, Text.cut?_eq_none_iff, not_not]
      exact he.trans hs'.isInfix
    obtain ⟨⟨body, rest⟩, hr⟩ := Option.ne_none_iff_exists'.mp hend
    simp [firstPart?, hb, hk, hr]

theorem firstPart?_eq_none_iff : firstPart? text = none ↔ ¬ Finished text := by
  rw [← firstPart?_isSome_iff, Option.not_isSome_iff_eq_none]

namespace Layout

theorem ofText_of_some {part : Part} (h : firstPart? text = some (part, rest)) :
    ofText text = ⟨part :: (ofText rest).parts, (ofText rest).tail⟩ := by
  rw [ofText]
  split
  · next h' =>
    obtain ⟨rfl, rfl⟩ := by simpa [h] using h'
    rfl
  · next h' => simp [h] at h'

theorem ofText_of_none (h : firstPart? text = none) : ofText text = ⟨[], text⟩ := by
  rw [ofText]
  split
  · next h' => simp [h] at h'
  · rfl

/-- A layout as the reading gives it. -/
structure WellFormed (layout : Layout) : Prop where
  parts : ∀ part ∈ layout.parts, part.WellFormed
  tail : ¬ Finished layout.tail

theorem toText_cons (part : Part) (parts : List Part) (tail : Text) :
    toText ⟨part :: parts, tail⟩ = part.before ++ (tag part.key ++
      ((part.body ++ endMark) ++ toText ⟨parts, tail⟩)) := by
  simp [toText, Part.toText, Part.marker]

theorem ofText_toText {layout : Layout} (h : layout.WellFormed) : ofText layout.toText = layout := by
  obtain ⟨parts, tail⟩ := layout
  induction parts with
  | nil => simpa [toText] using ofText_of_none (firstPart?_eq_none_iff.mpr h.tail)
  | cons part parts ih =>
    have hp := h.parts part (by simp)
    have hr : WellFormed ⟨parts, tail⟩ :=
      ⟨fun other ho => h.parts other (List.mem_cons_of_mem part ho), h.tail⟩
    have he : toText ⟨part :: parts, tail⟩ = part.toText ++ toText ⟨parts, tail⟩ := by
      simp [toText]
    rw [he, ofText_of_some (firstPart?_toText_append hp), ih hr]

theorem wellFormed_ofText (document : Text) : (ofText document).WellFormed := by
  induction document using ofText.induct with
  | case1 document part rest h _ ih =>
    rw [ofText_of_some h]
    refine ⟨fun other ho => ?_, ih.tail⟩
    rcases List.mem_cons.mp ho with rfl | ho
    · exact wellFormed_of_firstPart? h
    · exact ih.parts other ho
  | case2 document h =>
    rw [ofText_of_none h]
    exact ⟨by simp, firstPart?_eq_none_iff.mp h⟩

/-- The parts of a document stay when text is added behind it; what follows the last of them is read
on together with that text. -/
theorem ofText_append (document more : Text) :
    ofText (document ++ more) =
      ⟨(ofText document).parts ++ (ofText ((ofText document).tail ++ more)).parts,
        (ofText ((ofText document).tail ++ more)).tail⟩ := by
  induction document using ofText.induct with
  | case1 document part rest h _ ih =>
    rw [ofText_of_some (firstPart?_append_right h more), ofText_of_some h, ih, List.cons_append]
  | case2 document h =>
    rw [ofText_of_none h, List.nil_append]

/-- A document has one layout: the one well-formed layout whose text it is. -/
theorem ofText_eq_iff {document : Text} {layout : Layout} :
    ofText document = layout ↔ layout.WellFormed ∧ layout.toText = document := by
  constructor
  · rintro rfl
    exact ⟨wellFormed_ofText document, toText_ofText document⟩
  · rintro ⟨h, rfl⟩
    exact ofText_toText h

end Layout

end MessageKeys.Markup
