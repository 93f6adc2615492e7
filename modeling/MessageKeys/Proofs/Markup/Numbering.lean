import Mathlib.Data.List.Forall2
import MessageKeys.Markup.Reindexing
import MessageKeys.Proofs.Markup.FreshName
import MessageKeys.Proofs.Markup.Replacement

/-!
# The numbering of one key

A tag holds one bracket, its last character, so a numbering goes over the pieces of a document that
end with a bracket one by one. It adds the number in front of that bracket, which changes every
opening tag that ends like the tag of the key, not only those of the key itself. The end mark of a
part is left where it is, unless a tag that begins in the message takes it in.
-/
namespace MessageKeys.Markup

open Text (Clear)

variable {key text rest body : Text} {taken later : List Text} {index : Nat}

theorem soundRetagging_derived (hk : ']' ∉ key) :
    Retagged.Sound fun old new => old = key ∧ Derived key new where
  old h := h.1 ▸ hk
  new h := h.2.bracket hk
  stop h := h.2.not_endMark_infix_tag hk

theorem renumber_of_cut? {front back : Text} (h : text.cut? (tag key) = some (front, back)) :
    let new := numbered key (freshIndex taken key index)
    let more := renumber key (new :: taken) (freshIndex taken key index + 1) back
    renumber key taken index text = ⟨front ++ tag new ++ more.document, new :: more.newKeys, more.taken⟩ := by
  rw [renumber]
  split
  · next front' back' h' =>
    obtain ⟨rfl, rfl⟩ := by simpa [h] using h'
    rfl
  · next h' => simp [h] at h'

theorem renumber_of_absent (h : text.cut? (tag key) = none) :
    renumber key taken index text = ⟨text, [], taken⟩ := by
  rw [renumber]
  split
  · next h' => simp [h] at h'
  · rfl

/-- A numbering goes over text in which no tag of the key begins. -/
theorem renumber_append (h : Clear (tag key) text rest) :
    renumber key taken index (text ++ rest) =
      ⟨text ++ (renumber key taken index rest).document, (renumber key taken index rest).newKeys,
        (renumber key taken index rest).taken⟩ := by
  have hcut := Text.cut?_append h
  cases hr : rest.cut? (tag key) with
  | none =>
    rw [renumber_of_absent hr, renumber_of_absent (by rw [hcut, hr]; rfl)]
  | some pair =>
    obtain ⟨front, back⟩ := pair
    rw [renumber_of_cut? hr, renumber_of_cut? (by rw [hcut, hr]; rfl)]
    simp

/-- The tags of a key get names derived from it; all other text is copied. -/
theorem retagged_renumber (key : Text) (taken : List Text) (index : Nat) (text : Text) :
    Retagged (fun old new => old = key ∧ Derived key new) text
      (renumber key taken index text).document := by
  induction taken, index, text using renumber.induct key with
  | case1 taken index text front back hcut _ _ _ ih =>
    rw [renumber_of_cut? hcut]
    conv => lhs; rw [Text.cut?_eq hcut]
    rw [List.append_assoc, List.append_assoc]
    exact .append_left front (.tag ⟨rfl, derived_numbered key _⟩ ih)
  | case2 taken index text hcut =>
    rw [renumber_of_absent hcut]
    exact .refl text

theorem subset_taken_renumber (key : Text) (taken : List Text) (index : Nat) (text : Text) :
    taken ⊆ (renumber key taken index text).taken := by
  intro name hn
  fun_induction renumber key taken index text with
  | case1 taken index text front back hcut _ _ _ _ ih => exact ih (List.mem_cons_of_mem _ hn)
  | case2 taken index text hcut => exact hn

section pieces

/-- The first tag of a text is found whatever follows the text. -/
theorem cut?_tag_append (hk : ']' ∉ key) {front back : Text}
    (h : text.cut? (tag key) = some (front, back)) (rest : Text) :
    (text ++ rest).cut? (tag key) = some (front, back ++ rest) := by
  have hclear : Clear (tag key) front (tag key ++ (back ++ rest)) := by
    intro more hm hne hp
    refine Text.clear_of_cut? h more hm hne ?_
    have hclosed : Closed (more ++ tag key) := by simp [Closed, tag, closeBracket]
    have hbegins : tag key <+: (more ++ tag key) ++ (back ++ rest) := by
      simpa only [List.append_assoc] using hp
    rw [tag_begins_append_iff hk hclosed (by simp [hne])] at hbegins
    rw [← List.append_assoc]
    exact hbegins.trans (List.prefix_append _ _)
  rw [Text.cut?_eq h]
  simpa only [List.append_assoc] using Text.cut?_of_clear hclear

/-- A closed text is numbered by itself, and what follows it with higher numbers. -/
theorem renumber_append_of_closed (hk : ']' ∉ key) (hc : Closed text) (taken : List Text)
    (index : Nat) (rest : Text) :
    ∃ first more next, renumber key taken index text = first ∧ index ≤ next ∧
      (∀ new ∈ first.newKeys, ∃ number < next, new = numbered key number) ∧
      renumber key first.taken next rest = more ∧ renumber key taken index (text ++ rest) =
        ⟨first.document ++ more.document, first.newKeys ++ more.newKeys, more.taken⟩ := by
  induction taken, index, text using renumber.induct key with
  | case1 taken index text front back hcut _ _ _ ih =>
    have hback : Closed back := by
      refine hc.of_suffix ?_
      rw [Text.cut?_eq hcut]
      exact List.suffix_append _ _
    obtain ⟨first, more, next, rfl, hle, hnew, hmore, hn⟩ := ih hback
    have hindex := start_le_freshIndex taken key index
    refine ⟨_, more, next, renumber_of_cut? hcut, by omega, ?_, hmore, ?_⟩
    · exact List.forall_mem_cons.mpr ⟨⟨_, by omega, rfl⟩, hnew⟩
    · rw [renumber_of_cut? (cut?_tag_append hk hcut rest), hn]
      simp only [List.append_assoc, List.cons_append]
      rfl
  | case2 taken index text hcut =>
    have hclear : Clear (tag key) text rest := clear_tag hk hc (Text.cut?_eq_none_iff.mp hcut)
    exact ⟨_, _, index, renumber_of_absent hcut, Nat.le_refl _, by simp, rfl,
      by rw [renumber_append hclear]; rfl⟩

theorem renumber_tag_of_not_bears {name : Text} (hn : ']' ∉ name) (h : ¬ Bears key name) :
    renumber key taken index (tag name) = ⟨tag name, [], taken⟩ :=
  renumber_of_absent (Text.cut?_eq_none_iff.mpr fun hi => h (bears_iff.mpr (tag_infix_tag hn hi)))

/-- The number is added to the whole key of a tag that ends like the tag of the numbered key. -/
theorem renumber_tag_of_bears (hk : ']' ∉ key) {name : Text} (hn : ']' ∉ name) (h : Bears key name) :
    let new := freshIndex taken key index
    renumber key taken index (tag name) =
      ⟨tag (numbered name new), [numbered key new], numbered key new :: taken⟩ := by
  obtain ⟨front, hf⟩ := h
  have hname : tag name = front ++ tag key := by simp [tag, ← hf]
  cases hcut : (tag name).cut? (tag key) with
  | none => exact absurd ⟨front, [], by simp [hname]⟩ (Text.cut?_eq_none_iff.mp hcut)
  | some pair =>
    obtain ⟨before, after⟩ := pair
    have he := Text.cut?_eq hcut
    have hcount := count_bracket_tag hn
    -- there is no room for a second bracket
    have hafter : after = [] := by
      refine Closed.eq_nil_of_count_append (he ▸ closed_tag name) ?_
      rw [he, List.count_append, List.count_append, count_bracket_tag hk] at hcount
      rw [List.count_append, List.count_append, count_bracket_tag hk]
      omega
    subst hafter
    obtain rfl : front = before := by
      rw [hname, List.append_nil] at he
      exact List.append_cancel_right he
    rw [renumber_of_cut? hcut, renumber_of_absent (Text.cut?_eq_none_iff.mpr ?_)]
    · have hnew : front ++ tag (numbered key (freshIndex taken key index)) =
          tag (numbered name (freshIndex taken key index)) := by
        simp only [tag, numbered, ← List.append_assoc, hf]
      simp [hnew]
    · simp [tag_ne_nil]

/-- A tag that does not stand in the message and does not take in the end mark begins nowhere in
front of it. -/
theorem clear_tag_append_endMark (h : ¬ tag key <:+: body) (hs : ¬ tag key <:+ body ++ endMark) :
    Clear (tag key) body endMark := by
  intro more hm _ hp
  rcases tag_begins_append_endMark hp with hp | he
  · exact h (hp.isInfix.trans hm.isInfix)
  · refine hs (he ▸ ?_)
    obtain ⟨front, rfl⟩ := hm
    exact ⟨front, by simp⟩

theorem not_tag_infix_endMark (key : Text) : ¬ tag key <:+: endMark := fun h =>
  absurd ((openMark_prefix_tag key).isInfix.trans h) (by decide)

/-- What ends like a tag does so in what follows a closed text. -/
theorem tag_suffix_append_iff (hk : ']' ∉ key) (hc : Closed text) (hr : rest ≠ []) :
    tag key <:+ text ++ rest ↔ tag key <:+ rest := by
  refine ⟨?_, fun h => h.trans (List.suffix_append _ _)⟩
  rintro ⟨front, hf⟩
  rcases List.append_eq_append_iff.mp hf with ⟨extra, rfl, he⟩ | ⟨extra, rfl, rfl⟩
  · rcases List.eq_nil_or_concat extra with rfl | ⟨inner, last, rfl⟩
    · exact ⟨[], by simpa using he⟩
    · obtain rfl : last = ']' := hc last (by simp [← List.append_assoc])
      have hd := congrArg List.dropLast he
      rw [dropLast_tag, List.dropLast_append_of_ne_nil hr] at hd
      have hm : ']' ∈ openMark ++ key := hd ▸ by simp
      simp [hk, bracket_not_mem_openMark] at hm
  · exact ⟨extra, rfl⟩

/-- The end mark stays behind the message, unless a tag takes it in, and no other tag takes it in
that did not do so before. -/
theorem renumber_append_endMark (hk : ']' ∉ key) (hs : ¬ tag key <:+ body ++ endMark)
    (taken : List Text) (index : Nat) :
    ∃ new, (renumber key taken index (body ++ endMark)).document = new ++ endMark ∧
      (¬ tag key <:+: body → new = body) ∧
      Retagged (fun old new => old = key ∧ Derived key new) body new ∧
      ∀ other, ']' ∉ other → (tag other <:+ new ++ endMark ↔ tag other <:+ body ++ endMark) := by
  induction taken, index, body using renumber.induct key with
  | case1 taken index body front back hcut _ _ _ ih =>
    have he := Text.cut?_eq hcut
    obtain ⟨new, hdoc, -, hret, hsame⟩ := ih fun h => hs (h.trans ⟨front ++ tag key, by simp [he]⟩)
    rw [renumber_of_cut? (cut?_tag_append hk hcut endMark), hdoc]
    refine ⟨front ++ tag (numbered key (freshIndex taken key index)) ++ new, by simp, ?_, ?_, ?_⟩
    · exact fun h => absurd ⟨front, back, he.symm⟩ h
    · conv => lhs; rw [he]
      rw [List.append_assoc, List.append_assoc]
      exact .append_left front (.tag ⟨rfl, derived_numbered key _⟩ hret)
    · intro other ho
      have hclosed (name : Text) : Closed (front ++ tag name) := by simp [Closed, tag, closeBracket]
      have hne (more : Text) : more ++ endMark ≠ [] := by simp [endMark_ne_nil]
      rw [he, List.append_assoc _ new, List.append_assoc _ back,
        tag_suffix_append_iff ho (hclosed _) (hne new), tag_suffix_append_iff ho (hclosed _) (hne back)]
      exact hsame other ho
  | case2 taken index body hcut =>
    have hclear := clear_tag_append_endMark (Text.cut?_eq_none_iff.mp hcut) hs
    have habsent := Text.cut?_eq_none_iff.mpr (not_tag_infix_endMark key)
    refine ⟨body, ?_, fun _ => rfl, .refl body, fun _ _ => .rfl⟩
    rw [renumber_append hclear, renumber_of_absent habsent]

end pieces

/-- What becomes of the key of a part: if it ends like the numbered key, it gets a number that makes
that one a new name. The names in `taken` are taken before, and those in `more` afterwards; the
numbers below `start` are used up before, and those below `next` afterwards. -/
inductive Gets (key : Text) (start next : Nat) (taken more : List Text) (name : Text) : Text → Prop where
  | same (hb : ¬ Bears key name) (hi : start ≤ next) (hm : taken ⊆ more) :
      Gets key start next taken more name name
  | number (index : Nat) (hb : Bears key name) (hs : start ≤ index) (hi : index < next)
      (hn : numbered key index ∉ taken) (hm : numbered key index :: taken ⊆ more) :
      Gets key start next taken more name (numbered name index)

/-- The same for the keys of all parts, in their order. -/
inductive Numbers (key : Text) : Nat → List Text → List Text → List Text → List Text → Prop where
  | nil {start : Nat} {taken later : List Text} (h : taken ⊆ later) :
      Numbers key start taken later [] []
  | cons {start next : Nat} {taken more later before after : List Text} {name new : Text}
      (first : Gets key start next taken more name new)
      (rest : Numbers key next more later before after) :
      Numbers key start taken later (name :: before) (new :: after)

/-- What the numberings of some keys leave of a part besides its key. -/
structure Part.Numbered (keys : List Text) (new old : Part) : Prop where
  before : new.before = old.before
  body : (∀ key ∈ keys, ¬ tag key <:+: old.body) → new.body = old.body
  wellFormed : old.WellFormed → new.WellFormed
  stop : ∀ other, ']' ∉ other →
    (tag other <:+ new.body ++ endMark ↔ tag other <:+ old.body ++ endMark)

/-- The pieces of a part are numbered one after the other, and then what follows it. -/
theorem renumber_pieces (hk : ']' ∉ key) {part : Part} (hw : part.WellFormed) (taken : List Text)
    (index : Nat) (rest : Text) :
    ∃ first second more middle last,
      renumber key taken index (tag part.key) = first ∧ index ≤ middle ∧
      (∀ new ∈ first.newKeys, ∃ number < middle, new = numbered key number) ∧
      renumber key first.taken middle (part.body ++ endMark) = second ∧ middle ≤ last ∧
      renumber key second.taken last rest = more ∧
      renumber key taken index (part.toText ++ rest) =
        ⟨part.before ++ (first.document ++ (second.document ++ more.document)),
          first.newKeys ++ (second.newKeys ++ more.newKeys), more.taken⟩ := by
  have hbefore : Clear (tag key) part.before (tag part.key ++ (part.body ++ endMark ++ rest)) :=
    (clear_before hw.before).mono (openMark_prefix_tag key)
  obtain ⟨first, _, middle, hfirst, hmiddle, hused, rfl, htag⟩ := renumber_append_of_closed hk
    (closed_tag part.key) taken index (part.body ++ endMark ++ rest)
  obtain ⟨second, more, last, hsecond, hlast, -, hmore, hbody⟩ := renumber_append_of_closed hk
    (closed_append_endMark part.body) first.taken middle rest
  have hsplit : part.toText ++ rest =
      part.before ++ (tag part.key ++ (part.body ++ endMark ++ rest)) := by
    simp [Part.toText, Part.marker]
  refine ⟨first, second, more, middle, last, hfirst, hmiddle, hused, hsecond, hlast, hmore, ?_⟩
  rw [hsplit, renumber_append hbefore, htag, hbody]

/-- A part stays a part, unless a tag takes in its end mark. -/
theorem renumber_part (hk : ']' ∉ key) {part : Part} (hw : part.WellFormed)
    (hs : ¬ tag key <:+ part.body ++ endMark) (taken : List Text) (index : Nat) (rest : Text) :
    ∃ new more next,
      (renumber key taken index (part.toText ++ rest)).document =
        new.toText ++ (renumber key more next rest).document ∧
      (renumber key taken index (part.toText ++ rest)).taken = (renumber key more next rest).taken ∧
      Gets key index next taken more part.key new.key ∧ Part.Numbered [key] new part := by
  obtain ⟨first, second, _, next, last, hfirst, hnext, hused, hsecond, hlast, rfl, hall⟩ :=
    renumber_pieces hk hw taken index rest
  obtain ⟨body, hdoc, hsame, hret, hstop⟩ := renumber_append_endMark hk hs first.taken next
  have hgrow := subset_taken_renumber key first.taken next (part.body ++ endMark)
  rw [hsecond] at hdoc hgrow
  have hnumbered (name : Text) (hn : ']' ∉ name) :
      Part.Numbered [key] { part with key := name, body } part := by
    refine ⟨rfl, fun h => hsame (h key (by simp)), fun hw => ⟨hw.before, hn, fun hi => ?_⟩, hstop⟩
    exact hw.body (hret.endMark_infix_before (soundRetagging_derived hk) hi)
  rw [hall]
  by_cases hb : Bears key part.key
  · obtain rfl := (renumber_tag_of_bears hk hw.key hb).symm.trans hfirst
    refine ⟨{ part with key := numbered part.key (freshIndex taken key index), body }, second.taken,
      last, ?_, rfl, ?_, hnumbered _ ((derived_numbered part.key _).bracket hw.key)⟩
    · simp [hdoc, Part.toText, Part.marker]
    · obtain ⟨number, hnumber, he⟩ := hused _ List.mem_cons_self
      obtain rfl := numbered_injective key he
      exact .number _ hb (start_le_freshIndex taken key index) (by omega)
        (numbered_freshIndex_not_mem taken key index) hgrow
  · obtain rfl := (renumber_tag_of_not_bears hw.key hb).symm.trans hfirst
    refine ⟨{ part with body }, second.taken, last, ?_, rfl, .same hb (by omega) hgrow,
      hnumbered _ hw.key⟩
    simp [hdoc, Part.toText, Part.marker]

/-- The document of a numbering is that of the numbered parts. -/
theorem renumber_toText (hk : ']' ∉ key) (tail : Text) {parts : List Part}
    (hw : ∀ part ∈ parts, part.WellFormed)
    (hs : ∀ part ∈ parts, ¬ tag key <:+ part.body ++ endMark) (taken : List Text) (index : Nat) :
    ∃ after last,
      (renumber key taken index (Layout.toText ⟨parts, tail⟩)).document =
        Layout.toText ⟨after, last⟩ ∧
      Numbers key index taken (renumber key taken index (Layout.toText ⟨parts, tail⟩)).taken
        (parts.map Part.key) (after.map Part.key) ∧
      List.Forall₂ (Part.Numbered [key]) after parts ∧
      Retagged (fun old new => old = key ∧ Derived key new) tail last := by
  induction parts generalizing taken index with
  | nil =>
    exact ⟨[], _, rfl, .nil (subset_taken_renumber key taken index tail), .nil,
      retagged_renumber key taken index tail⟩
  | cons part parts ih =>
    obtain ⟨new, more, next, hdoc, htaken, hgets, hnew⟩ := renumber_part hk (hw part (by simp))
      (hs part (by simp)) taken index (Layout.toText ⟨parts, tail⟩)
    obtain ⟨after, last, hrest, hnumbers, hafter, htail⟩ :=
      ih (fun other h => hw other (List.mem_cons_of_mem part h))
        (fun other h => hs other (List.mem_cons_of_mem part h)) more next
    have hcons (part : Part) (parts : List Part) (tail : Text) :
        Layout.toText ⟨part :: parts, tail⟩ = part.toText ++ Layout.toText ⟨parts, tail⟩ := by
      simp [Layout.toText]
    refine ⟨new :: after, last, ?_, ?_, .cons hnew hafter, htail⟩
    · rw [hcons, hdoc, hrest, hcons]
    · rw [hcons, htaken]
      exact .cons hgets hnumbers

end MessageKeys.Markup
