import MessageKeys.Proofs.Markup.Layout

/-!
# Texts with other keys in their tags

Re-indexing and consolidation both copy a text and give some of its tags other keys on the way. A
tag holds no end mark and only one bracket, so neither of them finishes a marker that was not
finished before: what follows the last marked part of a document stays without marked parts.
-/
namespace MessageKeys.Markup

/-- `after` is `before` with some of its tags given other keys; `change` says which key may take
the place of which. -/
inductive Retagged (change : Text → Text → Prop) : Text → Text → Prop where
  | nil : Retagged change [] []
  | copy {before after : Text} (c : Char) (rest : Retagged change before after) :
      Retagged change (c :: before) (c :: after)
  | tag {before after old new : Text} (changed : change old new)
      (rest : Retagged change before after) :
      Retagged change (tag old ++ before) (tag new ++ after)

namespace Retagged

variable {change : Text → Text → Prop} {before after : Text}

theorem refl (text : Text) : Retagged change text text := by
  induction text with
  | nil => exact nil
  | cons c text ih => exact copy c ih

theorem append_left (text : Text) (h : Retagged change before after) :
    Retagged change (text ++ before) (text ++ after) := by
  induction text with
  | nil => exact h
  | cons c text ih => exact copy c ih

/-- The keys hold no bracket, and no end mark stands in the tag of a new one. -/
structure Sound (change : Text → Text → Prop) : Prop where
  old : ∀ {old new}, change old new → ']' ∉ old
  new : ∀ {old new}, change old new → ']' ∉ new
  stop : ∀ {old new}, change old new → ¬ endMark <:+: Markup.tag new

/-- Characters that begin no tag were copied. -/
theorem copied {word rest : Text} (hw : '[' ∉ word) (h : Retagged change before (word ++ rest)) :
    ∃ old, before = word ++ old ∧ Retagged change old rest := by
  induction word generalizing before with
  | nil => exact ⟨before, rfl, h⟩
  | cons c word ih =>
    simp only [List.mem_cons, not_or] at hw
    generalize he : c :: word ++ rest = text at h
    cases h with
    | nil => simp at he
    | copy d h =>
      obtain ⟨rfl, rfl⟩ := List.cons.inj he
      obtain ⟨old, rfl, ho⟩ := ih hw.2 h
      exact ⟨old, rfl, ho⟩
    | tag changed h => exact absurd (List.cons.inj he).1.symm hw.1

theorem endMark_infix_before (hs : Sound change) (h : Retagged change before after)
    (he : endMark <:+: after) : endMark <:+: before := by
  induction h with
  | nil => exact he
  | @copy before after c h ih =>
    rcases List.infix_cons_iff.mp he with ⟨rest, hr⟩ | he
    · obtain ⟨rfl, ht⟩ := List.cons.inj hr
      obtain ⟨old, rfl, -⟩ := copied (by decide) (ht ▸ h)
      exact ⟨[], old, rfl⟩
    · exact List.infix_cons (ih he)
  | @tag before after old new changed h ih =>
    have hc : Text.Clear endMark (Markup.tag new) after :=
      clear_of_closed (closed_tag new) bracket_not_mem_dropLast_endMark (hs.stop changed)
    exact (ih ((Text.infix_append_iff_of_clear hc).mp he)).trans (List.suffix_append _ _).isInfix

/-- The bracket of a tag stays in its place, so what ends after it ended before. -/
theorem ends_tag (hs : Sound change) {old new : Text} (changed : change old new)
    (h : Retagged change before after) (he : Ends (Markup.tag new ++ after)) :
    endMark <:+: before := by
  have hn : ']' ∉ openMark ++ new := by simp [bracket_not_mem_openMark, hs.new changed]
  exact h.endMark_infix_before hs
    ((ends_append_iff hn).mp (by simpa [Markup.tag, closeBracket] using he))

theorem ends (hs : Sound change) (h : Retagged change before after) (he : Ends after) :
    Ends before := by
  induction h with
  | nil => exact he
  | @copy before after c h ih =>
    obtain ⟨afterTag, ht, he⟩ := he
    rcases List.suffix_cons_iff.mp ht with heq | ht
    · obtain ⟨rfl, rfl⟩ := List.cons.inj heq
      exact ⟨before, List.suffix_refl _, h.endMark_infix_before hs he⟩
    · exact (ih ⟨afterTag, ht, he⟩).of_suffix (List.suffix_cons _ _)
  | @tag before after old new changed h ih =>
    refine ⟨before, ⟨openMark ++ old, ?_⟩, ends_tag hs changed h he⟩
    simp [Markup.tag, closeBracket]

/-- No marker is finished by giving tags other keys. -/
theorem finished (hs : Sound change) (h : Retagged change before after) (hf : Finished after) :
    Finished before := by
  induction h with
  | nil => exact hf
  | @copy before after c h ih =>
    obtain ⟨afterMark, hm, he⟩ := hf
    rcases List.suffix_cons_iff.mp hm with heq | hm
    · obtain ⟨rfl, ht⟩ := List.cons.inj heq
      obtain ⟨old, rfl, ho⟩ := copied (by decide) (ht ▸ h)
      exact ⟨old, List.suffix_refl _, ho.ends hs he⟩
    · obtain ⟨old, ho, he⟩ := ih ⟨afterMark, hm, he⟩
      exact ⟨old, ho.trans (List.suffix_cons _ _), he⟩
  | @tag before after old new changed h ih =>
    obtain ⟨afterMark, hm, he⟩ := hf
    have ht := he.of_suffix ((List.suffix_append _ _).trans hm)
    refine ⟨old ++ ']' :: before, ⟨[], ?_⟩, before, List.suffix_append _ _, ends_tag hs changed h ht⟩
    simp [Markup.tag, closeBracket]

/-- A tag has one bracket, whatever its key. -/
theorem count_bracket (hs : Sound change) (h : Retagged change before after) :
    after.count ']' = before.count ']' := by
  induction h with
  | nil => rfl
  | copy c h ih => rw [List.count_cons, List.count_cons, ih]
  | @tag before after old new changed h ih =>
    rw [List.count_append, List.count_append, ih, count_bracket_tag (hs.old changed),
      count_bracket_tag (hs.new changed)]

/-- Whatever their keys, tags begin and end with the same characters, so texts do as well. -/
theorem head?_eq (h : Retagged change before after) : after.head? = before.head? := by
  cases h with
  | nil => rfl
  | copy c h => rfl
  | tag changed h => rfl

theorem getLast?_eq (h : Retagged change before after) : after.getLast? = before.getLast? := by
  have hlast (key : Text) : (Markup.tag key).getLast? = some ']' := by simp [Markup.tag, closeBracket]
  induction h with
  | nil => rfl
  | copy c h ih => rw [List.getLast?_cons, List.getLast?_cons, ih]
  | tag changed h ih => rw [List.getLast?_append, List.getLast?_append, ih, hlast, hlast]

theorem closed (h : Retagged change before after) (hc : Closed before) : Closed after := by
  rwa [Closed, h.getLast?_eq]

end Retagged

end MessageKeys.Markup
