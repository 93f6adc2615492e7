import Mathlib.Logic.Basic
import MessageKeys.Text.Basic

/-!
# Where a mark first stands

A text is cut exactly where the mark first occurs. A search passes over a piece of text in which no
occurrence begins, whatever follows it; for a mark that overlaps neither itself nor what follows,
that is a piece in which the mark does not stand. Cutting again and again finds the occurrences that
do not overlap, counted from the left.
-/
namespace MessageKeys.Text

variable {mark text rest before after : Text}

theorem cut?_of_begins (h : mark <+: text) :
    text.cut? mark = some ([], text.drop mark.length) := by
  unfold cut?
  rw [if_pos (List.isPrefixOf_iff_prefix.mpr h)]

theorem cut?_cons_of_not_begins {c : Char} (h : ¬ mark <+: c :: text) :
    Text.cut? (c :: text) mark = (text.cut? mark).map fun (before, after) => (c :: before, after) := by
  conv => lhs; unfold cut?
  rw [if_neg (fun hp => h (List.isPrefixOf_iff_prefix.mp hp))]

theorem cut?_eq_none_iff : text.cut? mark = none ↔ ¬ mark <:+: text := by
  induction text with
  | nil =>
    unfold cut?
    by_cases h : mark = [] <;> simp [h]
  | cons c text ih =>
    rw [List.infix_cons_iff]
    by_cases h : mark <+: c :: text
    · simp [cut?_of_begins h, h]
    · simp [cut?_cons_of_not_begins h, h, ih]

/-- No occurrence of the mark begins in `text` when `rest` follows it. -/
def Clear (mark text rest : Text) : Prop :=
  ∀ back, back <:+ text → back ≠ [] → ¬ mark <+: back ++ rest

theorem clear_nil : Clear mark [] rest := by
  intro back hb hne
  exact absurd (List.suffix_nil.mp hb) hne

theorem clear_cons {c : Char} :
    Clear mark (c :: text) rest ↔ ¬ mark <+: c :: (text ++ rest) ∧ Clear mark text rest := by
  constructor
  · intro h
    exact ⟨h _ (List.suffix_refl _) (by simp), fun back hb => h back (hb.trans (List.suffix_cons c text))⟩
  · rintro ⟨hc, ht⟩ back hb hne
    rcases List.suffix_cons_iff.mp hb with rfl | hb
    · exact hc
    · exact ht back hb hne

/-- A longer mark begins nowhere that a shorter one does not begin. -/
theorem Clear.mono {longer : Text} (h : Clear mark text rest) (hl : mark <+: longer) :
    Clear longer text rest :=
  fun back hb hne hp => h back hb hne (hl.trans hp)

/-- A search passes over a text in which no occurrence begins. -/
theorem cut?_append (h : Clear mark text rest) :
    (text ++ rest).cut? mark = (rest.cut? mark).map fun (before, after) => (text ++ before, after) := by
  induction text with
  | nil => simp
  | cons c text ih =>
    obtain ⟨hc, ht⟩ := clear_cons.mp h
    rw [List.cons_append, cut?_cons_of_not_begins hc, ih ht, Option.map_map]
    rfl

theorem cut?_of_clear (h : Clear mark before (mark ++ after)) :
    (before ++ (mark ++ after)).cut? mark = some (before, after) := by
  rw [cut?_append h, cut?_of_begins (List.prefix_append mark after)]
  simp

theorem clear_of_cut? (h : text.cut? mark = some (before, after)) :
    Clear mark before (mark ++ after) := by
  induction text generalizing before with
  | nil =>
    have he := cut?_eq h
    simp only [List.nil_eq, List.append_eq_nil_iff] at he
    rw [he.1.1]
    exact clear_nil
  | cons c text ih =>
    by_cases hp : mark <+: c :: text
    · have hb : before = [] := by simpa [cut?_of_begins hp, eq_comm] using congrArg (Option.map Prod.fst) h
      subst hb
      exact clear_nil
    · rw [cut?_cons_of_not_begins hp] at h
      obtain ⟨⟨b, a⟩, hb, he⟩ := Option.map_eq_some_iff.mp h
      obtain ⟨rfl, rfl⟩ := by simpa using he
      refine clear_cons.mpr ⟨?_, ih hb⟩
      simpa [cut?_eq hb] using hp

theorem Clear.absent (h : Clear mark text rest) (hm : mark ≠ []) : ¬ mark <:+: text := by
  rintro ⟨a, b, rfl⟩
  refine h (mark ++ b) ⟨a, by simp⟩ (by simp [hm]) ?_
  exact ⟨b ++ rest, by simp⟩

/-- The occurrence that is cut at is the first one. -/
theorem not_infix_of_cut? (hm : mark ≠ []) (h : text.cut? mark = some (before, after)) :
    ¬ mark <:+: before :=
  (clear_of_cut? h).absent hm

/-- Where no occurrence begins in `text`, all of them stand in what follows. -/
theorem infix_append_iff_of_clear (h : Clear mark text rest) :
    mark <:+: text ++ rest ↔ mark <:+: rest := by
  have hn : (text ++ rest).cut? mark = none ↔ rest.cut? mark = none := by
    rw [cut?_append h, Option.map_eq_none_iff]
  rw [cut?_eq_none_iff, cut?_eq_none_iff] at hn
  exact not_iff_not.mp hn

/-- An occurrence that begins in `text` and is not part of it ends in `rest`. -/
theorem Clear.of_absent (h : ¬ mark <:+: text)
    (hr : ∀ back ahead, back <:+ text → back ≠ [] → ahead ≠ [] → mark = back ++ ahead →
      ¬ ahead <+: rest) : Clear mark text rest := by
  intro back hb hne hp
  obtain ⟨more, hm⟩ := hp
  rcases List.append_eq_append_iff.mp hm with ⟨inner, he, _⟩ | ⟨ahead, he, ha⟩
  · exact h ((List.prefix_append mark inner).isInfix.trans (he ▸ hb.isInfix))
  · by_cases hn : ahead = []
    · exact h (by simpa [he, hn] using hb.isInfix)
    · exact hr back ahead hb hne hn he ⟨more, ha.symm⟩

/-- A mark whose later characters do not begin what follows does not reach into it. -/
theorem clear_of_head (h : ¬ mark <:+: text) (hr : ∀ c ∈ rest.head?, c ∉ mark.tail) :
    Clear mark text rest := by
  refine Clear.of_absent h fun back ahead _ hne hn he ha => ?_
  obtain ⟨c, ahead, rfl⟩ := List.exists_cons_of_ne_nil hn
  obtain ⟨b, back, rfl⟩ := List.exists_cons_of_ne_nil hne
  obtain ⟨more, rfl⟩ := ha
  exact hr c (by simp) (by simp [he])

/-- A mark whose first character does not stand in the text begins nowhere in it. -/
theorem clear_of_head_not_mem {c : Char} (hm : mark.head? = some c) (hc : c ∉ text) :
    Clear mark text rest := by
  intro back hb hne hp
  obtain ⟨d, back, rfl⟩ := List.exists_cons_of_ne_nil hne
  obtain ⟨more, rfl⟩ := List.head?_eq_some_iff.mp hm
  obtain ⟨rfl, -⟩ := List.cons_prefix_cons.mp hp
  exact hc (hb.subset (by simp))

/-- A mark that does not overlap itself is cut at wherever it stands first. -/
theorem cut?_eq_some_iff {c : Char} (hh : mark.head? = some c) (ht : c ∉ mark.tail) :
    text.cut? mark = some (before, after) ↔ text = before ++ (mark ++ after) ∧ ¬ mark <:+: before := by
  obtain ⟨rest, rfl⟩ := List.head?_eq_some_iff.mp hh
  constructor
  · intro h
    exact ⟨by simpa using cut?_eq h, not_infix_of_cut? (List.cons_ne_nil c rest) h⟩
  · rintro ⟨rfl, h⟩
    refine cut?_of_clear (clear_of_head h fun d hd => ?_)
    exact Option.some.inj hd ▸ ht

/-- A mark that holds the last character of a text nowhere but at its end does not reach over
that character. -/
theorem clear_of_last (h : ¬ mark <:+: text) (hl : ∀ c ∈ text.getLast?, c ∉ mark.dropLast) :
    Clear mark text rest := by
  refine Clear.of_absent h fun back ahead hb hne hn he _ => ?_
  have hlast : text.getLast? = some (back.getLast hne) := by
    obtain ⟨front, rfl⟩ := hb
    rw [List.getLast?_append, List.getLast?_eq_some_getLast hne, Option.some_or]
  refine hl _ hlast ?_
  rw [he, List.dropLast_append_of_ne_nil hn]
  exact List.mem_append_left _ (List.getLast_mem hne)

/-- A mark that holds its last character only once ends at the first place of that character, or stands
behind it. -/
theorem concat_infix_append_cons_iff {front : Text} {c : Char} (hf : c ∉ front) (ht : c ∉ text) :
    front ++ [c] <:+: text ++ c :: rest ↔ front <:+ text ∨ front ++ [c] <:+: rest := by
  constructor
  · rintro ⟨a, b, h⟩
    rw [← List.append_assoc, List.append_assoc] at h
    rcases List.append_eq_append_iff.mp h with ⟨extra, he, hc⟩ | ⟨extra, he, hc⟩
    · obtain rfl : extra = [] := by
        rcases extra with _ | ⟨d, extra⟩
        · rfl
        · obtain ⟨rfl, -⟩ := List.cons.inj hc
          exact absurd (he ▸ by simp) ht
      exact .inl ⟨a, by simpa using he.symm⟩
    · rcases extra with _ | ⟨d, extra⟩
      · exact .inl ⟨a, by simpa using he⟩
      · obtain ⟨rfl, hrest⟩ := List.cons.inj hc
        -- the character stands behind the text, so the front of the mark begins after it
        rcases List.append_eq_append_iff.mp he with ⟨inner, -, hi⟩ | ⟨inner, -, hi⟩
        · exact absurd (hi ▸ by simp) hf
        · rcases inner with _ | ⟨d, inner⟩
          · exact absurd ((List.nil_append front ▸ hi) ▸ List.mem_cons_self) hf
          · exact .inr ⟨inner, b, by simp [hrest, (List.cons.inj hi).2]⟩
  · rintro (⟨a, rfl⟩ | ⟨a, b, rfl⟩)
    · exact ⟨a, rest, by simp⟩
    · exact ⟨text ++ c :: a, b, by simp⟩

/-- What is added at the end of a text does not change where it is cut. -/
theorem cut?_append_right (h : text.cut? mark = some (before, after)) (more : Text) :
    (text ++ more).cut? mark = some (before, after ++ more) := by
  have hclear : Clear mark before (mark ++ (after ++ more)) := by
    intro back hb hne hp
    refine clear_of_cut? h back hb hne (List.prefix_of_prefix_length_le hp ⟨more, by simp⟩ ?_)
    rw [List.length_append, List.length_append]
    omega
  rw [cut?_eq h, List.append_assoc, List.append_assoc]
  exact cut?_of_clear hclear

/-- How often the mark stands in the text, counted from the left: behind an occurrence the count goes
on where that occurrence ends. -/
def occurrences (mark : Text) : Text → Nat
  | [] => 0
  | c :: text =>
    if mark.isPrefixOf (c :: text) then occurrences mark (text.drop (mark.length - 1)) + 1
    else occurrences mark text
termination_by text => text.length

theorem occurrences_nil (mark : Text) : occurrences mark [] = 0 := by
  rw [occurrences]

theorem occurrences_of_begins (hm : mark ≠ []) :
    occurrences mark (mark ++ rest) = occurrences mark rest + 1 := by
  obtain ⟨c, more, rfl⟩ := List.exists_cons_of_ne_nil hm
  rw [List.cons_append, occurrences, if_pos]
  · simp
  · exact List.isPrefixOf_iff_prefix.mpr ⟨rest, rfl⟩

theorem occurrences_of_not_begins {c : Char} (h : ¬ mark <+: c :: text) :
    occurrences mark (c :: text) = occurrences mark text := by
  rw [occurrences, if_neg fun hp => h (List.isPrefixOf_iff_prefix.mp hp)]

theorem occurrences_append_of_clear (h : Clear mark text rest) :
    occurrences mark (text ++ rest) = occurrences mark rest := by
  induction text with
  | nil => rfl
  | cons c text ih =>
    obtain ⟨hc, ht⟩ := clear_cons.mp h
    rw [List.cons_append, occurrences_of_not_begins hc, ih ht]

theorem occurrences_of_absent (h : ¬ mark <:+: text) : occurrences mark text = 0 := by
  have hclear : Clear mark text [] := fun back hb _ hp =>
    h ((List.append_nil back ▸ hp).isInfix.trans hb.isInfix)
  have hnone := occurrences_append_of_clear hclear
  rwa [List.append_nil, occurrences_nil] at hnone

/-- Each cut finds one occurrence. -/
theorem occurrences_of_cut? (hm : mark ≠ []) (h : text.cut? mark = some (before, after)) :
    occurrences mark text = occurrences mark after + 1 := by
  rw [cut?_eq h, List.append_assoc, occurrences_append_of_clear (clear_of_cut? h),
    occurrences_of_begins hm]

/-- Where no occurrence reaches from one text into the next, both are counted by themselves. -/
theorem occurrences_append (hm : mark ≠ [])
    (h : ∀ back ahead, back ≠ [] → ahead ≠ [] → mark = back ++ ahead → back <:+ text →
      ¬ ahead <+: rest) :
    occurrences mark (text ++ rest) = occurrences mark text + occurrences mark rest := by
  induction text using occurrences.induct mark with
  | case1 => rw [List.nil_append, occurrences_nil, Nat.zero_add]
  | case2 c text hp ih =>
    obtain ⟨more, hmore⟩ := List.isPrefixOf_iff_prefix.mp hp
    have hdrop : text.drop (mark.length - 1) = more := by
      obtain ⟨d, inner, rfl⟩ := List.exists_cons_of_ne_nil hm
      simp [← (List.cons.inj hmore).2]
    rw [hdrop] at ih
    have hrest := ih fun back ahead hb ha he hs =>
      h back ahead hb ha he (hs.trans (hmore ▸ List.suffix_append mark more))
    rw [← hmore, List.append_assoc, occurrences_of_begins hm, occurrences_of_begins hm, hrest]
    omega
  | case3 c text hp ih =>
    have hnot : ¬ mark <+: c :: text := fun hb => hp (List.isPrefixOf_iff_prefix.mpr hb)
    have hnot' : ¬ mark <+: c :: (text ++ rest) := by
      rintro ⟨more, hmore⟩
      rw [← List.cons_append] at hmore
      rcases List.append_eq_append_iff.mp hmore with ⟨inner, he, _⟩ | ⟨ahead, he, ha⟩
      · exact hnot ⟨inner, he.symm⟩
      · by_cases hn : ahead = []
        · exact hnot ⟨[], by simp [he, hn]⟩
        · exact h (c :: text) ahead (by simp) hn he (List.suffix_refl _) ⟨more, ha.symm⟩
    have hrest := ih fun back ahead hb ha he hs =>
      h back ahead hb ha he (hs.trans (List.suffix_cons c text))
    rw [List.cons_append, occurrences_of_not_begins hnot, occurrences_of_not_begins hnot', hrest]

theorem mem_replaceFirst {old new : Text} {c : Char} (h : c ∈ text.replaceFirst old new) :
    c ∈ text ∨ c ∈ new := by
  unfold replaceFirst at h
  split at h
  · next before after hcut =>
    rw [cut?_eq hcut]
    simp only [List.mem_append] at h ⊢
    rcases h with (hb | hn) | ha
    · exact .inl (.inl (.inl hb))
    · exact .inr hn
    · exact .inl (.inr ha)
  · exact .inl h

end MessageKeys.Text
