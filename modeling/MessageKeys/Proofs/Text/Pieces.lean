import MessageKeys.Text.Basic

/-!
# Pieces between separators

No piece holds the separator, and a text is cut in the same places whether its halves on both sides
of a separator are taken together or apart. Each piece stands somewhere in the text, and the last one
is empty only behind a separator.
-/
namespace MessageKeys.Text

variable {separator : Char} {text : Text}

theorem pieces_ne_nil (separator : Char) (text : Text) : text.pieces separator ≠ [] := by
  cases text with
  | nil => simp [pieces]
  | cons c text =>
    unfold pieces
    split
    · simp
    · split <;> simp

@[simp] theorem pieces_cons_self (separator : Char) (text : Text) :
    Text.pieces separator (separator :: text) = [] :: text.pieces separator := by
  simp [pieces]

theorem pieces_cons_of_ne {c : Char} (hc : c ≠ separator) (text : Text) :
    ∃ piece more, text.pieces separator = piece :: more ∧
      Text.pieces separator (c :: text) = (c :: piece) :: more := by
  obtain ⟨piece, more, h⟩ := List.exists_cons_of_ne_nil (pieces_ne_nil separator text)
  exact ⟨piece, more, h, by simp [pieces, hc, h]⟩

theorem pieces_append (separator : Char) (a b : Text) :
    Text.pieces separator (a ++ separator :: b) = a.pieces separator ++ b.pieces separator := by
  induction a with
  | nil => simp [pieces]
  | cons c a ih =>
    by_cases hc : c = separator
    · subst hc
      rw [List.cons_append, pieces_cons_self, pieces_cons_self, ih, List.cons_append]
    · obtain ⟨piece, more, ha, hca⟩ := pieces_cons_of_ne hc a
      obtain ⟨first, rest, hb, hcb⟩ := pieces_cons_of_ne hc (a ++ separator :: b)
      rw [ih, ha, List.cons_append] at hb
      obtain ⟨rfl, rfl⟩ := List.cons.inj hb
      rw [List.cons_append, hcb, hca, List.cons_append]

theorem pieces_of_not_mem (h : separator ∉ text) : text.pieces separator = [text] := by
  induction text with
  | nil => rfl
  | cons c text ih =>
    simp only [List.mem_cons, not_or] at h
    simp [pieces, Ne.symm h.1, ih h.2]

theorem separator_not_mem {piece : Text} (h : piece ∈ text.pieces separator) :
    separator ∉ piece := by
  induction text generalizing piece with
  | nil => simp_all [pieces]
  | cons c text ih =>
    by_cases hc : c = separator
    · subst hc
      rw [pieces_cons_self] at h
      rcases List.mem_cons.mp h with rfl | h
      · simp
      · exact ih h
    · obtain ⟨first, more, ht, hct⟩ := pieces_cons_of_ne hc text
      rw [hct] at h
      rcases List.mem_cons.mp h with rfl | h
      · simp only [List.mem_cons, not_or]
        exact ⟨Ne.symm hc, ih (ht ▸ List.mem_cons_self)⟩
      · exact ih (ht ▸ List.mem_cons_of_mem first h)

theorem join_cons (separator : Char) (piece : Text) {more : List Text} (h : more ≠ []) :
    join [separator] (piece :: more) = piece ++ separator :: join [separator] more := by
  obtain ⟨next, rest, rfl⟩ := List.exists_cons_of_ne_nil h
  rw [join, List.intercalate_cons_cons, List.append_assoc]
  rfl

theorem join_singleton (separator : Char) (piece : Text) : join [separator] [piece] = piece :=
  List.intercalate_singleton

/-- The pieces and the separators between them are the text. -/
theorem join_pieces (separator : Char) (text : Text) :
    join [separator] (text.pieces separator) = text := by
  induction text with
  | nil => rfl
  | cons c text ih =>
    by_cases hc : c = separator
    · subst hc
      rw [pieces_cons_self, join_cons _ _ (pieces_ne_nil c text), ih, List.nil_append]
    · obtain ⟨piece, more, ht, hct⟩ := pieces_cons_of_ne hc text
      rw [hct, ← ih, ht]
      cases more with
      | nil => rfl
      | cons next rest =>
        rw [join_cons _ _ (List.cons_ne_nil next rest), join_cons _ _ (List.cons_ne_nil next rest),
          List.cons_append]

theorem pieces_join {parts : List Text} (hn : parts ≠ []) (h : ∀ part ∈ parts, separator ∉ part) :
    Text.pieces separator (join [separator] parts) = parts := by
  induction parts with
  | nil => exact absurd rfl hn
  | cons part rest ih =>
    obtain ⟨hpart, hrest⟩ := List.forall_mem_cons.mp h
    cases rest with
    | nil => rw [join_singleton, pieces_of_not_mem hpart]
    | cons next rest =>
      rw [join_cons _ _ (List.cons_ne_nil next rest), pieces_append, pieces_of_not_mem hpart,
        ih (List.cons_ne_nil next rest) hrest, List.singleton_append]

/-- A text tells what stands on both sides of its last separator. -/
theorem append_separator_inj {a b x y : Text} (hx : separator ∉ x) (hy : separator ∉ y) :
    a ++ separator :: x = b ++ separator :: y ↔ a = b ∧ x = y := by
  constructor
  · intro h
    have hpieces := congrArg (pieces separator) h
    rw [pieces_append, pieces_append, pieces_of_not_mem hx, pieces_of_not_mem hy] at hpieces
    obtain ⟨hfront, hlast⟩ := List.append_inj' hpieces rfl
    refine ⟨?_, (List.cons.inj hlast).1⟩
    rw [← join_pieces separator a, hfront, join_pieces]
  · rintro ⟨rfl, rfl⟩
    rfl

/-- What the first of the pieces make up stands at the beginning of the text. -/
theorem join_begins (separator : Char) (parts more : List Text) :
    join [separator] parts <+: join [separator] (parts ++ more) := by
  induction parts with
  | nil => exact List.nil_prefix
  | cons part rest ih =>
    cases rest with
    | nil =>
      cases more with
      | nil => exact List.prefix_rfl
      | cons next more =>
        rw [List.singleton_append, join_cons _ _ (List.cons_ne_nil next more), join_singleton]
        exact List.prefix_append part _
    | cons next rest =>
      rw [List.cons_append, join_cons _ _ (List.cons_ne_nil next rest),
        join_cons _ _ (show next :: rest ++ more ≠ [] by simp)]
      exact (List.prefix_append_right_inj part).mpr (List.cons_prefix_cons.mpr ⟨rfl, ih⟩)

theorem isInfix_of_mem_pieces {piece : Text} (h : piece ∈ text.pieces separator) :
    piece <:+: text := by
  induction text with
  | nil => simp_all [pieces]
  | cons c text ih =>
    have hbegins : ∀ first more, Text.pieces separator (c :: text) = first :: more →
        first <+: c :: text := fun first more hp => by
      have := join_begins separator [first] more
      rwa [join_singleton, List.singleton_append, ← hp, join_pieces] at this
    obtain ⟨first, more, hp⟩ := List.exists_cons_of_ne_nil (pieces_ne_nil separator (c :: text))
    by_cases hfirst : piece = first
    · exact hfirst ▸ (hbegins first more hp).isInfix
    · have hmore : piece ∈ more := (List.mem_cons.mp (hp ▸ h)).resolve_left hfirst
      have hrest : piece ∈ Text.pieces separator text := by
        by_cases hc : c = separator
        · subst hc
          rw [pieces_cons_self] at hp
          exact (List.cons.inj hp).2 ▸ hmore
        · obtain ⟨front, others, ht, hct⟩ := pieces_cons_of_ne hc text
          rw [hct] at hp
          rw [ht, (List.cons.inj hp).2]
          exact List.mem_cons_of_mem front hmore
      exact (ih hrest).trans (List.suffix_cons c text).isInfix

end MessageKeys.Text
