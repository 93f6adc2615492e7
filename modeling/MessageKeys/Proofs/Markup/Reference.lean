import MessageKeys.Proofs.Markup.Preparation

/-!
# References in documents

A reference begins no marker and ends with a bracket, but it holds its key as it is written. So in a
document in which all markers are replaced by references a marker begins only in a key that holds an
opening mark, and it is finished exactly if an end mark stands further on. Without finished markers a
document is left as it is by everything that is done to markers.
-/
namespace MessageKeys.Markup

open Text (Clear)

variable {text rest key before document : Text}

theorem reference_append (key rest : Text) :
    reference key ++ rest = ['~', '[', 't', 'e', 'x', 't', ':'] ++ (key ++ ']' :: rest) := by
  have hopening : "~[text:".toList = ['~', '[', 't', 'e', 'x', 't', ':'] := by decide
  unfold reference closeBracket
  rw [List.append_assoc, List.append_assoc, hopening, List.singleton_append]

theorem head?_reference_append (key rest : Text) : (reference key ++ rest).head? = some '~' := by
  rw [reference_append]
  rfl

/-- The opening of a reference begins no opening mark. -/
theorem clear_opening_reference (rest : Text) :
    Clear openMark ['~', '[', 't', 'e', 'x', 't', ':'] rest := by
  have ho : openMark = ['[', 'm', 's', 'g', ':'] := rfl
  rw [ho]
  simp [Text.clear_cons, Text.clear_nil]

/-- Nor does it begin an end mark. -/
theorem clear_endMark_opening_reference (rest : Text) :
    Clear endMark ['~', '[', 't', 'e', 'x', 't', ':'] rest := by
  have he : endMark = ['[', '/', 'm', 's', 'g', ']'] := rfl
  rw [he]
  simp [Text.clear_cons, Text.clear_nil]

theorem firstPart?_append_of_clear (h : Clear openMark text rest) :
    firstPart? (text ++ rest) = none ↔ firstPart? rest = none := by
  rw [firstPart?_append h, Option.map_eq_none_iff]

/-- A marker that begins in front of the end of a reference begins in its key. -/
theorem firstPart?_append_reference (hb : ¬ openMark <:+: before) :
    firstPart? (before ++ (reference key ++ rest)) = none ↔
      firstPart? (key ++ ']' :: rest) = none := by
  have hbefore : Clear openMark before (reference key ++ rest) := by
    refine Text.clear_of_head hb fun c hc => ?_
    obtain rfl := Option.some.inj ((head?_reference_append key rest).symm.trans hc)
    decide
  rw [firstPart?_append_of_clear hbefore, reference_append,
    firstPart?_append_of_clear (clear_opening_reference _)]

/-- A marker that begins in a key is finished exactly if an end mark follows. -/
theorem firstPart?_of_marked_key (hk : ']' ∉ key) (ho : openMark <:+: key) :
    firstPart? (key ++ ']' :: rest) = none ↔ ¬ endMark <:+: rest := by
  rw [firstPart?_eq_none_iff, not_iff_not, ← ends_append_iff hk]
  constructor
  · rintro ⟨afterMark, hm, he⟩
    exact he.of_suffix ((List.suffix_append openMark afterMark).trans hm)
  · intro he
    obtain ⟨front, back, rfl⟩ := ho
    have hback : ']' ∉ back := fun hb => hk (List.mem_append_right _ hb)
    refine ⟨back ++ ']' :: rest, ⟨front, by simp⟩, (ends_append_iff hback).mpr ?_⟩
    exact (ends_append_iff hk).mp he

theorem firstPart?_of_plain_key (ho : ¬ openMark <:+: key) :
    firstPart? (key ++ ']' :: rest) = none ↔ firstPart? rest = none := by
  have hbracket : Clear openMark key [']'] := Text.clear_of_head ho fun c hc => by
    obtain rfl : c = ']' := (Option.some.inj hc).symm
    decide
  have hclear : Clear openMark (key ++ [']']) rest := by
    refine clear_of_closed (by simp [Closed]) (by decide) ?_
    rw [Text.infix_append_iff_of_clear hbracket]
    decide
  rw [← firstPart?_append_of_clear hclear, List.append_assoc, List.singleton_append]

/-- An end mark stands in the plain text, over the end of the key or behind the reference. -/
theorem endMark_infix_append_reference (hk : ']' ∉ key) :
    endMark <:+: before ++ (reference key ++ rest) ↔
      (endMark <:+: before ∨ endMark.dropLast <:+ key) ∨ endMark <:+: rest := by
  by_cases hb : endMark <:+: before
  · exact iff_of_true (hb.trans (List.prefix_append _ _).isInfix) (.inl (.inl hb))
  · have hbefore : Clear endMark before (reference key ++ rest) := by
      refine Text.clear_of_head hb fun c hc => ?_
      obtain rfl := Option.some.inj ((head?_reference_append key rest).symm.trans hc)
      decide
    have hend : endMark <:+: key ++ ']' :: rest ↔ endMark.dropLast <:+ key ∨ endMark <:+: rest :=
      Text.concat_infix_append_cons_iff bracket_not_mem_dropLast_endMark hk
    rw [Text.infix_append_iff_of_clear hbefore, reference_append,
      Text.infix_append_iff_of_clear (clear_endMark_opening_reference _), hend, or_assoc,
      or_iff_right hb]

namespace Layout

theorem withReferences_cons (part : Part) (parts : List Part) (tail : Text) :
    withReferences ⟨part :: parts, tail⟩ =
      part.before ++ (reference part.key ++ withReferences ⟨parts, tail⟩) := by
  simp [withReferences]

/-- Whether the references of a layout make no marker: where a key holds an opening mark, no end mark
stands behind its reference. -/
structure Inert (layout : Layout) : Prop where
  parts : layout.parts.Pairwise fun part later =>
    openMark <:+: part.key → ¬ (endMark <:+: later.before ∨ endMark.dropLast <:+ later.key)
  tail : ∀ part ∈ layout.parts, openMark <:+: part.key → ¬ endMark <:+: layout.tail

theorem endMark_infix_withReferences {parts : List Part} {tail : Text}
    (hk : ∀ part ∈ parts, ']' ∉ part.key) :
    endMark <:+: withReferences ⟨parts, tail⟩ ↔
      (∃ part ∈ parts, endMark <:+: part.before ∨ endMark.dropLast <:+ part.key) ∨
        endMark <:+: tail := by
  induction parts with
  | nil => simp [withReferences]
  | cons part parts ih =>
    obtain ⟨hpart, hparts⟩ := List.forall_mem_cons.mp hk
    rw [withReferences_cons, endMark_infix_append_reference hpart, ih hparts, List.exists_mem_cons_iff,
      ← or_assoc]

theorem inert_cons_iff {part : Part} {parts : List Part} {tail : Text}
    (hk : ∀ other ∈ parts, ']' ∉ other.key) :
    Inert ⟨part :: parts, tail⟩ ↔
      (openMark <:+: part.key → ¬ endMark <:+: withReferences ⟨parts, tail⟩) ∧
        Inert ⟨parts, tail⟩ := by
  rw [endMark_infix_withReferences hk]
  constructor
  · intro h
    obtain ⟨hfirst, hrest⟩ := List.pairwise_cons.mp h.parts
    refine ⟨fun ho => not_or.mpr ⟨?_, h.tail part List.mem_cons_self ho⟩, hrest,
      fun other hm => h.tail other (List.mem_cons_of_mem _ hm)⟩
    rintro ⟨later, hm, he⟩
    exact hfirst later hm ho he
  · rintro ⟨hfirst, h⟩
    refine ⟨List.pairwise_cons.mpr ⟨fun later hm ho he => ?_, h.parts⟩, fun other hm ho => ?_⟩
    · exact hfirst ho (.inl ⟨later, hm, he⟩)
    · rcases List.mem_cons.mp hm with rfl | hm
      · exact fun he => hfirst ho (.inr he)
      · exact h.tail other hm ho

theorem inert_of_plain {layout : Layout}
    (hk : ∀ part ∈ layout.parts, ¬ openMark <:+: part.key) : Inert layout where
  parts := List.pairwise_of_forall_mem_list fun part hm _ _ ho => absurd ho (hk part hm)
  tail := fun part hm ho => absurd ho (hk part hm)

theorem firstPart?_withReferences_eq_none_iff {layout : Layout} (hw : layout.WellFormed) :
    firstPart? layout.withReferences = none ↔ layout.Inert := by
  obtain ⟨parts, tail⟩ := layout
  induction parts with
  | nil => exact iff_of_true (firstPart?_eq_none_iff.mpr hw.tail) (inert_of_plain (by simp))
  | cons part parts ih =>
    obtain ⟨hpart, hparts⟩ := List.forall_mem_cons.mp hw.parts
    have hkeys : ∀ other ∈ parts, ']' ∉ other.key := fun other hm => (hparts other hm).key
    rw [withReferences_cons, firstPart?_append_reference hpart.before, inert_cons_iff hkeys]
    by_cases ho : openMark <:+: part.key
    · -- the marker that begins in this key decides, as an end mark further on follows it as well
      rw [firstPart?_of_marked_key hpart.key ho]
      refine ⟨fun he => ⟨fun _ => he, ?_⟩, fun h => h.1 ho⟩
      rw [endMark_infix_withReferences hkeys, not_or] at he
      exact ⟨List.pairwise_of_forall_mem_list fun _ _ later hm _ hl => he.1 ⟨later, hm, hl⟩,
        fun _ _ _ => he.2⟩
    · rw [firstPart?_of_plain_key ho, ih ⟨hparts, hw.tail⟩]
      exact ⟨fun h => ⟨fun hm => absurd hm ho, h⟩, And.right⟩

/-- A reference is shorter than the marker it stands for. -/
theorem length_withReferences (layout : Layout) :
    layout.withReferences.length + 4 * layout.parts.length ≤ layout.toText.length := by
  obtain ⟨parts, tail⟩ := layout
  induction parts with
  | nil => simp [withReferences, toText]
  | cons part parts ih =>
    have hreference : (reference part.key).length = part.key.length + 8 := by
      rw [← List.append_nil (reference part.key), reference_append]
      simp only [List.length_append, List.length_cons, List.length_nil]
      omega
    have hmarker : part.marker.length = part.key.length + part.body.length + 12 := by
      have hopen : openMark.length = 5 := rfl
      have hclose : closeBracket.length = 1 := rfl
      have hend : endMark.length = 6 := rfl
      simp only [Part.marker, tag, List.length_append, hopen, hclose, hend]
      omega
    have htext : toText ⟨part :: parts, tail⟩ = part.before ++ part.marker ++ toText ⟨parts, tail⟩ := by
      simp [toText, Part.toText]
    rw [withReferences_cons, htext]
    simp only [List.length_append, List.length_cons, hreference, hmarker] at ih ⊢
    omega

end Layout

/-- The materialized document has no markers exactly if its references make none. -/
theorem parts_materialize_eq_nil_iff :
    (Layout.ofText (materialize document)).parts = [] ↔ (Layout.ofText document).Inert := by
  rw [← Layout.firstPart?_withReferences_eq_none_iff (Layout.wellFormed_ofText document)]
  change _ ↔ firstPart? (materialize document) = none
  constructor
  · intro h
    cases hp : firstPart? (materialize document) with
    | none => rfl
    | some found =>
      obtain ⟨part, rest⟩ := found
      rw [Layout.ofText_of_some hp] at h
      exact absurd h (List.cons_ne_nil _ _)
  · intro h
    rw [Layout.ofText_of_none h]

theorem parts_materialize (hk : ∀ part ∈ (Layout.ofText document).parts, ¬ openMark <:+: part.key) :
    (Layout.ofText (materialize document)).parts = [] :=
  parts_materialize_eq_nil_iff.mpr (Layout.inert_of_plain hk)

theorem materialize_eq_self_iff :
    materialize document = document ↔ (Layout.ofText document).parts = [] := by
  constructor
  · intro h
    have hlength := Layout.length_withReferences (Layout.ofText document)
    rw [Layout.toText_ofText, show (Layout.ofText document).withReferences = document from h]
      at hlength
    exact List.eq_nil_of_length_eq_zero (by omega)
  · intro h
    have htext := Layout.toText_ofText document
    rw [Layout.toText, h] at htext
    rw [materialize, Layout.withReferences, h]
    exact htext

theorem scan_eq_empty_iff :
    scan document = ⟨.empty, .empty⟩ ↔ (Layout.ofText document).parts = [] := by
  constructor
  · intro h
    refine List.eq_nil_iff_forall_not_mem.mpr fun part hp => ?_
    have hkey := mem_keys_messages_scan.mpr ⟨part, hp, rfl⟩
    rw [h] at hkey
    exact List.not_mem_nil hkey
  · intro h
    rw [scan, spans, h]
    rfl

/-- In a materialized document nothing is left to extract, and materializing it once more leaves it as
it is, exactly if behind no reference whose key holds an opening mark an end mark stands: in plain
text, over the end of a key or in the tail. -/
theorem materialize_leaves_nothing_iff (document : Text) :
    (scan (materialize document) = ⟨.empty, .empty⟩ ↔ (Layout.ofText document).Inert) ∧
      (materialize (materialize document) = materialize document ↔
        (Layout.ofText document).Inert) :=
  ⟨scan_eq_empty_iff.trans parts_materialize_eq_nil_iff,
    materialize_eq_self_iff.trans parts_materialize_eq_nil_iff⟩

/-- A forgotten bracket makes a key of an opening mark: its reference and the end mark in the tail are
taken for a marker. -/
theorem materialize_leaves_marker :
    let document := "[msg:[msg:a]x[/msg][/msg]".toList
    materialize document = "~[text:[msg:a][/msg]".toList ∧
      (scan (materialize document)).messages.keys = ["a".toList] ∧
      materialize (materialize document) = "~[text:~[text:a]".toList := by
  decide +kernel

section unmarked

variable (h : (Layout.ofText document).parts = [])
include h

theorem scan_of_no_parts : (scan document).duplicates = [] ∧ (scan document).messages = .empty := by
  rw [scan_eq_empty_iff.mpr h]
  exact ⟨rfl, rfl⟩

/-- Preparing a document without markers gives no messages and the document itself. -/
theorem prepare_of_no_parts (reindexing : Bool) :
    (prepare document reindexing).messages = .empty ∧
      (prepare document reindexing).materialized = document := by
  obtain ⟨hduplicates, hmessages⟩ := scan_of_no_parts h
  have hsettled : settled document reindexing = document := by simp [settled, hduplicates]
  refine ⟨?_, ?_⟩
  · rw [prepare_messages, hsettled, hmessages]
    rfl
  · have hnone : ∀ key ∈ (consolidationMap .empty).keys, ¬ tag key <:+: document := by
      simp [consolidationMap, OrderedMap.keys, OrderedMap.empty, OrderedMap.ofList]
    rw [Prepared.materialized, prepare_document, prepare_consolidated, hsettled, hmessages,
      replaceTags_eq_self hnone, materialize_eq_self_iff.mpr h]

end unmarked

end MessageKeys.Markup
