import MessageKeys.Proofs.Markup.Renaming
import MessageKeys.Proofs.Markup.Updates

/-!
# Tags and spans

Spans are counted as they are read, but new keys are handed out to tags as they are written. Every
span opens with its tag, so a key has at least as many tags as spans. Where it has no more, its
numbering gives new keys to its spans and changes nothing else; where it has more, one stands in a
marker that is not finished, or in the key or the text of another span, and gets a new key that no
span has.
-/
namespace MessageKeys.Markup

variable {key other tail : Text} {keys taken before after : List Text} {index : Nat}
  {parts : List Part} {updates : KeyUpdates}

/-- A numbering that makes no new keys changes nothing. -/
theorem renumber_of_no_newKeys {text : Text} (h : (renumber key taken index text).newKeys = []) :
    renumber key taken index text = ⟨text, [], taken⟩ := by
  cases hcut : text.cut? (tag key) with
  | none => exact renumber_of_absent hcut
  | some found =>
    rw [renumber_of_cut? hcut] at h
    exact absurd h (List.cons_ne_nil _ _)

theorem toText_cons_append (part : Part) (parts : List Part) (tail : Text) :
    Layout.toText ⟨part :: parts, tail⟩ = part.toText ++ Layout.toText ⟨parts, tail⟩ := by
  simp [Layout.toText]

theorem inPlaceOf_cons_append (key new old : Text) (after before : List Text) :
    inPlaceOf key (new :: after) (old :: before) =
      inPlaceOf key [new] [old] ++ inPlaceOf key after before := by
  rw [inPlaceOf_cons, inPlaceOf_cons]
  split <;> rfl

/-- An opening tag of the numbered key is found once at least. Where no other tag is found within an
opening tag, it gets a new name if it has the numbered key, and is left if it has another. -/
theorem renumber_opening (hk : ']' ∉ key) {name : Text} (hn : ']' ∉ name) (taken : List Text)
    (index : Nat) :
    let opening := renumber key taken index (tag name)
    [name].count key ≤ opening.newKeys.length ∧
      (opening.newKeys.length = [name].count key → ∃ new, opening.document = tag new ∧
        ']' ∉ new ∧ opening.newKeys = inPlaceOf key [new] [name] ∧
        if name = key then new ∉ taken else new = name) := by
  by_cases he : name = key
  · subst he
    rw [renumber_tag_of_bears hk hn (.refl name)]
    refine ⟨by simp, fun _ => ⟨_, rfl, (derived_numbered name _).bracket hn, ?_, ?_⟩⟩
    · rw [inPlaceOf_cons, if_pos rfl]
      rfl
    · rw [if_pos rfl]
      exact numbered_freshIndex_not_mem taken name index
  · rw [List.count_singleton, beq_false_of_ne he, if_neg Bool.false_ne_true]
    refine ⟨Nat.zero_le _, fun h => ?_⟩
    rw [renumber_of_no_newKeys (List.eq_nil_of_length_eq_zero h)]
    exact ⟨name, rfl, hn, by rw [inPlaceOf_cons, if_neg he]; rfl, (if_neg he).symm ▸ rfl⟩

/-- Each span of the key opens with its tag, and each tag makes a new key. -/
theorem count_le_length_newKeys (hk : ']' ∉ key) (tail : Text)
    (hw : ∀ part ∈ parts, part.WellFormed) (taken : List Text) (index : Nat) :
    (parts.map Part.key).count key ≤
      (renumber key taken index (Layout.toText ⟨parts, tail⟩)).newKeys.length := by
  induction parts generalizing taken index with
  | nil => exact Nat.zero_le _
  | cons part parts ih =>
    obtain ⟨hpart, hparts⟩ := List.forall_mem_cons.mp hw
    obtain ⟨_, second, _, _, last, rfl, -, -, -, -, rfl, hall⟩ :=
      renumber_pieces hk hpart taken index (Layout.toText ⟨parts, tail⟩)
    have hopening := (renumber_opening hk hpart.key taken index).1
    have hrest := ih hparts second.taken last
    rw [toText_cons_append, hall, List.map_cons, ← List.singleton_append, List.count_append,
      List.length_append, List.length_append]
    omega

/-- The same part, under a name that was not taken if it had the key. -/
structure Part.Rekeyed (key : Text) (taken : List Text) (new old : Part) : Prop where
  before : new.before = old.before
  body : new.body = old.body
  bracket : ']' ∉ new.key
  key : if old.key = key then new.key ∉ taken else new.key = old.key

theorem Part.Rekeyed.mono {more : List Text} {new old : Part} (hm : taken ⊆ more)
    (h : new.Rekeyed key more old) : new.Rekeyed key taken old where
  before := h.before
  body := h.body
  bracket := h.bracket
  key := by
    have hkey := h.key
    split at hkey
    · next he => exact (if_pos he).symm ▸ fun ht => hkey (hm ht)
    · next he => exact (if_neg he).symm ▸ hkey

/-- A key with no more tags than spans is numbered at its spans and nowhere else. -/
theorem renumber_of_count (hk : ']' ∉ key) (hw : ∀ part ∈ parts, part.WellFormed) (tail : Text)
    (taken : List Text) (index : Nat)
    (h : (renumber key taken index (Layout.toText ⟨parts, tail⟩)).newKeys.length =
      (parts.map Part.key).count key) :
    ∃ after : List Part,
      (renumber key taken index (Layout.toText ⟨parts, tail⟩)).document = Layout.toText ⟨after, tail⟩ ∧
      (renumber key taken index (Layout.toText ⟨parts, tail⟩)).newKeys =
        inPlaceOf key (after.map Part.key) (parts.map Part.key) ∧
      List.Forall₂ (Part.Rekeyed key taken) after parts := by
  induction parts generalizing taken index with
  | nil =>
    have hnone := renumber_of_no_newKeys (List.eq_nil_of_length_eq_zero h)
    exact ⟨[], by rw [hnone], by rw [hnone]; rfl, .nil⟩
  | cons part parts ih =>
    obtain ⟨hpart, hparts⟩ := List.forall_mem_cons.mp hw
    obtain ⟨first, second, more, middle, last, hfirst, -, -, hsecond, -, hmore, hall⟩ :=
      renumber_pieces hk hpart taken index (Layout.toText ⟨parts, tail⟩)
    obtain ⟨hleast, hopening⟩ := renumber_opening hk hpart.key taken index
    have hrest := count_le_length_newKeys hk tail hparts second.taken last
    have hgrow : taken ⊆ second.taken := hsecond ▸ List.Subset.trans
      (hfirst ▸ subset_taken_renumber key taken index _)
      (subset_taken_renumber key first.taken middle _)
    rw [toText_cons_append, hall] at h ⊢
    rw [hfirst] at hleast hopening
    rw [hmore] at hrest
    -- no piece makes up for another, as none has fewer tags than spans
    have hlengths : first.newKeys.length = [part.key].count key ∧ second.newKeys.length = 0 ∧
        more.newKeys.length = (parts.map Part.key).count key := by
      rw [List.map_cons, ← List.singleton_append, List.count_append, List.length_append,
        List.length_append] at h
      omega
    obtain ⟨name, hname, hbracket, hnew, hkey⟩ := hopening hlengths.1
    have hbody := renumber_of_no_newKeys (hsecond ▸ List.eq_nil_of_length_eq_zero hlengths.2.1)
    rw [hsecond] at hbody
    obtain ⟨after, hdoc, hlater, hafter⟩ := ih hparts second.taken last (hmore ▸ hlengths.2.2)
    rw [hmore] at hdoc hlater
    refine ⟨{ part with key := name } :: after, ?_, ?_,
      .cons ⟨rfl, rfl, hbracket, hkey⟩ (hafter.imp fun _ _ hr => hr.mono hgrow)⟩
    · rw [toText_cons_append, hdoc, hname, hbody]
      simp [Part.toText, Part.marker]
    · rw [hnew, hbody, hlater]
      exact (inPlaceOf_cons_append key name part.key _ _).symm

theorem Layout.WellFormed.rekeyed (hw : Layout.WellFormed ⟨parts, tail⟩) {renamed : List Part}
    (h : List.Forall₂ (Part.Rekeyed key taken) renamed parts) : Layout.WellFormed ⟨renamed, tail⟩ where
  parts new hm := by
    obtain ⟨old, ho, hr⟩ := exists_of_forall₂ h hm
    have hold := hw.parts old ho
    exact ⟨hr.before ▸ hold.before, hr.bracket, hr.body ▸ hold.body⟩
  tail := hw.tail

/-- Names that are new for one key are none of those that were taken. -/
abbrev RenamesOnly (key : Text) (taken after before : List Text) : Prop :=
  List.Forall₂ (fun new old => if old = key then new ∉ taken else new = old) after before

theorem RenamesOnly.count_eq (h : RenamesOnly key taken after before) (hne : other ≠ key)
    (ht : other ∈ taken) : after.count other = before.count other := by
  induction h with
  | nil => rfl
  | @cons new old after before hr _ ih =>
    split at hr
    · next he =>
      have hnew : new ≠ other := fun hn => hr (hn ▸ ht)
      have hold : old ≠ other := fun ho => hne (ho ▸ he)
      rw [List.count_cons_of_ne hnew, List.count_cons_of_ne hold, ih]
    · rw [hr, List.count_cons, List.count_cons, ih]

/-- What the updates tell of the keys `before` and `after`: in the places of each of `keys` stand the
new keys that they hold for it, and all other keys stay. -/
structure Told (keys : List Text) (updates : KeyUpdates) (after before : List Text) : Prop where
  kept : List.Forall₂ (fun new old => old ∉ keys → new = old) after before
  noted : ∀ key ∈ keys, updates.get? key = some (inPlaceOf key after before)

/-- What a numbering gave is not numbered again, so it stands in the places of its key in the end. -/
theorem Told.cons {between : List Text} (h : Told keys updates after between)
    (hr : RenamesOnly key taken between before) (ht : keys ⊆ taken) (hk : key ∉ keys)
    (hg : updates.get? key = some (inPlaceOf key between before)) :
    Told (key :: keys) updates after before where
  kept := by
    refine forall₂_comp (fun new mid old hlater hfirst ho => ?_) h.kept hr
    obtain ⟨hne, ho⟩ := not_or.mp (mt List.mem_cons.mpr ho)
    rw [if_neg hne] at hfirst
    subst hfirst
    exact hlater ho
  noted := by
    refine List.forall_mem_cons.mpr ⟨?_, fun other ho => ?_⟩
    · rw [hg]
      refine congrArg some (inPlaceOf_congr_left h.kept hr fun new mid hlater hfirst => ?_).symm
      rw [if_pos rfl] at hfirst
      exact hlater fun hm => hfirst (ht hm)
    · rw [h.noted other ho]
      refine congrArg some (inPlaceOf_congr_right hr (fun mid old hfirst => ?_) after)
      split at hfirst
      · next he =>
        subst he
        exact iff_of_false (fun hm => hfirst (hm ▸ ht ho)) fun hm => hk (hm ▸ ho)
      · rw [hfirst]

/-- Where each key in its turn has no more tags than it had spans at first, the updates tell what
became of the keys of the spans. -/
theorem told_renumberAll {layout : Layout} (hw : layout.WellFormed) (hn : keys.Nodup)
    (hu : keys.Disjoint updates.keys) (hb : ∀ key ∈ keys, ']' ∉ key) (ht : keys ⊆ taken)
    (hpos : ∀ key ∈ keys, 0 < (layout.parts.map Part.key).count key)
    (h : ∀ before key after, keys = before ++ key :: after →
      Text.occurrences (tag key) (renumberAll before taken layout.toText updates).1 =
        (layout.parts.map Part.key).count key) :
    ∃ renamed : Layout, (renumberAll keys taken layout.toText updates).1 = renamed.toText ∧
      renamed.WellFormed ∧ Told keys (renumberAll keys taken layout.toText updates).2
        (renamed.parts.map Part.key) (layout.parts.map Part.key) := by
  induction keys generalizing taken layout updates with
  | nil => exact ⟨layout, rfl, hw, List.forall₂_same.mpr fun _ _ _ => rfl, by simp⟩
  | cons key keys ih =>
    obtain ⟨hkey, hkeys⟩ := List.nodup_cons.mp hn
    obtain ⟨hbkey, hbkeys⟩ := List.forall_mem_cons.mp hb
    obtain ⟨hpkey, hpkeys⟩ := List.forall_mem_cons.mp hpos
    obtain ⟨-, htkeys⟩ := List.cons_subset.mp ht
    let first := renumber key taken 0 layout.toText
    have hlength : first.newKeys.length = (layout.parts.map Part.key).count key :=
      (length_newKeys key taken 0 layout.toText).trans (h [] key keys rfl)
    obtain ⟨between, hdoc, hnew, hrekeyed⟩ :=
      renumber_of_count hbkey hw.parts layout.tail taken 0 hlength
    have hrenames : RenamesOnly key taken (between.map Part.key) (layout.parts.map Part.key) := by
      rw [RenamesOnly, List.forall₂_map_left_iff, List.forall₂_map_right_iff]
      exact hrekeyed.imp fun _ _ hr => hr.key
    -- the keys that are still to come keep their spans
    have hcounts : ∀ other ∈ keys, (between.map Part.key).count other =
        (layout.parts.map Part.key).count other := fun other ho =>
      hrenames.count_eq (fun he => hkey (he ▸ ho)) (htkeys ho)
    have htaken : keys ⊆ first.taken :=
      List.Subset.trans htkeys (subset_taken_renumber key taken 0 layout.toText)
    have hlater : ∀ before other after, keys = before ++ other :: after →
        Text.occurrences (tag other) (renumberAll before first.taken
          (Layout.toText ⟨between, layout.tail⟩) (noted updates key first.newKeys)).1 =
            (between.map Part.key).count other := by
      intro before other after he
      rw [hcounts other (he ▸ by simp), ← h (key :: before) other after (he ▸ rfl), renumberAll_cons,
        hdoc]
    obtain ⟨renamed, hlast, hwell, htold⟩ := ih (hw.rekeyed hrekeyed) hkeys (disjoint_noted hn hu _)
      hbkeys htaken (fun other ho => hcounts other ho ▸ hpkeys other ho) hlater
    rw [renumberAll_cons, hdoc]
    refine ⟨renamed, hlast, hwell, htold.cons hrenames htkeys hkey ?_⟩
    have hsome : first.newKeys ≠ [] := List.ne_nil_of_length_pos (hlength ▸ hpkey)
    rw [get?_renumberAll_of_not_mem hkey, get?_noted_self hsome, hnew]

theorem mem_inPlaceOf {name : Text} :
    name ∈ inPlaceOf key after before ↔ (name, key) ∈ after.zip before := by
  simp [inPlaceOf]

/-- Updated messages have the new keys of those that were updated, and the old ones of the others. -/
theorem mem_keys_applyUpdates {messages : Messages} {name : Text} :
    name ∈ (applyUpdates messages updates).keys ↔
      ∃ old ∈ messages.keys, name ∈ (updates.get? old).getD [old] := by
  rw [applyUpdates, OrderedMap.keys_ofList, OrderedMap.mem_firsts, List.map_flatMap, OrderedMap.keys]
  simp [Function.comp_def]

/-- The keys in the end are those that the updates give to the old ones. -/
theorem Told.mem_iff (h : Told keys updates after before)
    (hout : ∀ key, key ∉ keys → updates.get? key = none) {name : Text} :
    name ∈ after ↔ ∃ old ∈ before, name ∈ (updates.get? old).getD [old] := by
  have hzip : List.Forall₂ (fun new old => (new, old) ∈ after.zip before) after before :=
    List.forall₂_iff_zip.mpr ⟨h.kept.length_eq, id⟩
  have hsame {new old : Text} (hm : (new, old) ∈ after.zip before) (ho : old ∉ keys) : new = old :=
    (List.forall₂_iff_zip.mp h.kept).2 hm ho
  constructor
  · intro hname
    obtain ⟨old, hold, hm⟩ := exists_of_forall₂ hzip hname
    refine ⟨old, hold, ?_⟩
    by_cases ho : old ∈ keys
    · rw [h.noted old ho]
      exact mem_inPlaceOf.mpr hm
    · rw [hout old ho, hsame hm ho]
      exact List.mem_singleton_self old
  · rintro ⟨old, hold, hname⟩
    by_cases ho : old ∈ keys
    · rw [h.noted old ho] at hname
      exact (List.of_mem_zip (mem_inPlaceOf.mp hname)).1
    · rw [hout old ho] at hname
      obtain rfl := List.mem_singleton.mp hname
      obtain ⟨new, hnew, hm⟩ := exists_of_forall₂ hzip.flip hold
      exact hsame hm ho ▸ hnew

section plain

/-- No tag of a plain key ends in the tag of another key that begins within it. -/
theorem not_begins_tag (ho : ']' ∉ other) (hp : Plain other) {name : Text} (hn : ']' ∉ name)
    (hne : name ≠ other) {back ahead rest : Text} (ha : ahead ≠ []) (he : tag other = back ++ ahead) :
    ¬ ahead <+: tag name ++ rest := by
  rintro ⟨more, hmore⟩
  have hclosed : Closed ahead := (closed_tag other).of_suffix ⟨back, he.symm⟩
  have hlast : ']' ∈ ahead := by
    have hl := List.getLast?_eq_some_getLast ha
    exact hclosed _ hl ▸ List.getLast_mem ha
  -- both end at their only bracket
  have hcount : ahead.count ']' = (tag name).count ']' := by
    have hother := count_bracket_tag ho
    have hpos := List.count_pos_iff.mpr hlast
    rw [he, List.count_append] at hother
    rw [count_bracket_tag hn]
    omega
  have hahead : ahead = tag name := (hclosed.eq_of_append_eq (closed_tag name) hcount hmore).1
  have hinside : tag name <:+: tag other := by
    rw [he, ← hahead]
    exact (List.suffix_append back ahead).isInfix
  rcases tag_infix_tag ho hinside with hsame | hs
  · exact hne hsame
  · exact hp ((List.prefix_append _ _).isInfix.trans hs.isInfix)

/-- The tags of a plain key are counted as if no tags of other plain keys stood in the text. -/
theorem occurrences_append_tag (ho : ']' ∉ other) (hp : Plain other) {name : Text} (hn : ']' ∉ name)
    (hname : Plain name) (hne : name ≠ other) (front back : Text) :
    Text.occurrences (tag other) (front ++ (tag name ++ back)) =
      Text.occurrences (tag other) front + Text.occurrences (tag other) back := by
  have habsent : ¬ tag other <:+: tag name := fun hi => by
    rcases tag_infix_tag hn hi with he | hs
    · exact hne he.symm
    · exact hname ((List.prefix_append _ _).isInfix.trans hs.isInfix)
  rw [Text.occurrences_append (tag_ne_nil other) fun _ _ _ ha he _ =>
      not_begins_tag ho hp hn hne ha he,
    Text.occurrences_append_of_clear (clear_tag ho (closed_tag name) habsent)]

/-- The numbering of a plain key makes and takes no tags of another one. -/
theorem occurrences_renumber (hk : ']' ∉ key) (hpk : Plain key) (ho : ']' ∉ other) (hpo : Plain other)
    (hne : key ≠ other) (ht : other ∈ taken) (index : Nat) (text : Text) :
    Text.occurrences (tag other) (renumber key taken index text).document =
      Text.occurrences (tag other) text := by
  induction taken, index, text using renumber.induct key with
  | case1 taken index text front back hcut _ _ _ ih =>
    have hnew : numbered key (freshIndex taken key index) ≠ other := fun he =>
      numbered_freshIndex_not_mem taken key index (he ▸ ht)
    have hbracket := (derived_numbered key (freshIndex taken key index)).bracket hk
    rw [renumber_of_cut? hcut, List.append_assoc,
      occurrences_append_tag ho hpo hbracket ((plain_numbered _).mpr hpk) hnew,
      ih (List.mem_cons_of_mem _ ht)]
    conv => rhs; rw [Text.cut?_eq hcut, List.append_assoc]
    rw [occurrences_append_tag ho hpo hk hpk hne]
  | case2 taken index text hcut => rw [renumber_of_absent hcut]

theorem occurrences_renumberAll (hb : ∀ key ∈ keys, ']' ∉ key) (hp : ∀ key ∈ keys, Plain key)
    (ho : ']' ∉ other) (hpo : Plain other) (hne : other ∉ keys) (ht : other ∈ taken) (document : Text)
    (updates : KeyUpdates) :
    Text.occurrences (tag other) (renumberAll keys taken document updates).1 =
      Text.occurrences (tag other) document := by
  induction keys generalizing taken document updates with
  | nil => rfl
  | cons key keys ih =>
    obtain ⟨hbkey, hbkeys⟩ := List.forall_mem_cons.mp hb
    obtain ⟨hpkey, hpkeys⟩ := List.forall_mem_cons.mp hp
    obtain ⟨hkey, hkeys⟩ := not_or.mp (mt List.mem_cons.mpr hne)
    rw [renumberAll_cons, ih hbkeys hpkeys hkeys (subset_taken_renumber key taken 0 document ht),
      occurrences_renumber hbkey hpkey ho hpo (Ne.symm hkey) ht]

end plain

/-- What the result of a re-indexing says is what became of the document: its spans are as many as
before; the new keys that are noted for a duplicate key are those of its spans, in their order, and as
many as it has spans; and the messages have the keys of the new document. -/
structure Reindexed.Truthful (document : Text) (reindexed : Reindexed) : Prop where
  length : (spans reindexed.document).length = (spans document).length
  updates : ∀ key ∈ (scan document).duplicates, reindexed.updates.get? key =
    some (inPlaceOf key ((spans reindexed.document).map Span.key) ((spans document).map Span.key))
  numbers : ∀ key ∈ (scan document).duplicates,
    ((reindexed.updates.get? key).getD []).length = (scan document).occurrencesOf key
  keys : ∀ key, key ∈ reindexed.messages.keys ↔ key ∈ (scan reindexed.document).messages.keys

section scanned

variable {document : Text}

/-- The turn of a duplicate key comes once, and it gets a new key for each of its tags then. -/
theorem length_updates {before after : List Text}
    (he : (scan document).duplicates = before ++ key :: after) :
    (((reindex document (scan document).messages (scan document).duplicates).updates.get? key).getD
        []).length =
      Text.occurrences (tag key) (reindex document (scan document).messages before).document := by
  have hn : (before ++ key :: after).Nodup := he ▸ nodup_duplicates (spans document)
  rw [he]
  exact length_get?_renumberAll hn (List.disjoint_nil_right _) _ document

/-- Where no duplicate key has more tags than spans in its turn, the updates tell the truth. -/
theorem truthful_of_counts
    (h : ∀ before key after, (scan document).duplicates = before ++ key :: after →
      Text.occurrences (tag key) (reindex document (scan document).messages before).document =
        (scan document).occurrencesOf key) :
    (reindex document (scan document).messages (scan document).duplicates).Truthful document := by
  let extraction := scan document
  let reindexed := reindex document extraction.messages extraction.duplicates
  have hnodup : extraction.duplicates.Nodup := nodup_duplicates (spans document)
  have hempty : extraction.duplicates.Disjoint (OrderedMap.empty : KeyUpdates).keys :=
    List.disjoint_nil_right extraction.duplicates
  have hcount (key : Text) :
      ((Layout.ofText document).parts.map Part.key).count key = extraction.occurrencesOf key :=
    (occurrencesOf_scan document key).symm
  obtain ⟨renamed, hdoc, hwell, htold⟩ := told_renumberAll (Layout.wellFormed_ofText document) hnodup
    hempty (fun _ => bracket_not_mem_duplicate) (numberable_scan document).listed
    (fun _ hk => Nat.zero_lt_one.trans (mem_duplicates_scan.mp hk)) (by
      rw [Layout.toText_ofText]
      exact fun before key after he => (h before key after he).trans (hcount key).symm)
  rw [Layout.toText_ofText] at hdoc htold
  have hlayout : Layout.ofText reindexed.document = renamed := by
    rw [show reindexed.document = renamed.toText from hdoc, Layout.ofText_toText hwell]
  have hkeys : (spans reindexed.document).map Span.key = renamed.parts.map Part.key := by
    rw [map_key_spans, hlayout]
  have hout : ∀ key, key ∉ extraction.duplicates → reindexed.updates.get? key = none := fun key hk =>
    get?_renumberAll_of_not_mem hk _ document .empty
  refine ⟨?_, fun key hk => ?_, fun key hk => ?_, fun key => ?_⟩
  · have hlength := htold.kept.length_eq
    rwa [← hkeys, ← map_key_spans, List.length_map, List.length_map] at hlength
  · rw [hkeys, map_key_spans]
    exact htold.noted key hk
  · obtain ⟨before, after, he⟩ := List.append_of_mem hk
    rw [length_updates he, h before key after he]
  · rw [mem_keys_messages_scan, hlayout, ← List.mem_map, htold.mem_iff hout]
    refine mem_keys_applyUpdates.trans (exists_congr fun old => and_congr_left fun _ => ?_)
    rw [mem_keys_messages_scan, List.mem_map]

/-- No duplicate key is numbered before its turn. -/
theorem occurrences_before (hp : ∀ key ∈ (scan document).duplicates, Plain key)
    (he : (scan document).duplicates = before ++ key :: after) :
    Text.occurrences (tag key) (reindex document (scan document).messages before).document =
      Text.occurrences (tag key) document := by
  have hn : (before ++ key :: after).Nodup := he ▸ nodup_duplicates (spans document)
  have hkey : key ∈ (scan document).duplicates := he ▸ by simp
  have hbefore : before ⊆ (scan document).duplicates := he ▸ List.subset_append_left _ _
  have hne : key ∉ before := fun hm => (List.nodup_append'.mp hn).2.2 hm List.mem_cons_self
  exact occurrences_renumberAll (fun _ hm => bracket_not_mem_duplicate (hbefore hm))
    (fun _ hm => hp _ (hbefore hm)) (bracket_not_mem_duplicate hkey) (hp key hkey) hne
    ((numberable_scan document).listed hkey) document .empty

end scanned

/-- The updates of a re-indexing tell the truth exactly if each duplicate key has as many tags as
spans in its turn. The keys before it can make or take tags of it only where a duplicate key holds an
opening mark; where none does, the tags are those of the document itself. -/
theorem reindex_truthful_iff (document : Text) :
    let extraction := scan document
    let reindexed := reindex document extraction.messages extraction.duplicates
    (reindexed.Truthful document ↔ ∀ before key after, extraction.duplicates = before ++ key :: after →
      Text.occurrences (tag key) (reindex document extraction.messages before).document =
        extraction.occurrencesOf key) ∧
    ((∀ key ∈ extraction.duplicates, ¬ openMark <:+: key) →
      (reindexed.Truthful document ↔ ∀ key ∈ extraction.duplicates,
        Text.occurrences (tag key) document = extraction.occurrencesOf key)) := by
  intro extraction reindexed
  have hiff : reindexed.Truthful document ↔
      ∀ before key after, extraction.duplicates = before ++ key :: after →
        Text.occurrences (tag key) (reindex document extraction.messages before).document =
          extraction.occurrencesOf key := by
    refine ⟨fun h before key after he => ?_, truthful_of_counts⟩
    have hkey : key ∈ extraction.duplicates := he ▸ by simp
    rw [← length_updates he, h.numbers key hkey]
  refine ⟨hiff, fun hp => hiff.trans ⟨fun h key hkey => ?_, fun h before key after he => ?_⟩⟩
  · obtain ⟨before, after, he⟩ := List.append_of_mem hkey
    rw [← occurrences_before hp he, h before key after he]
  · rw [occurrences_before hp he, h key (he ▸ by simp)]

/-- The tag of another key in an unfinished marker does no harm. -/
theorem reindex_truthful_iff_chained :
    let document := "[msg:a]x[/msg][msg:a_0]y[/msg] [msg:a]z[/msg][msg:a_0]w[/msg] [msg:b]".toList
    let extraction := scan document
    (∀ key ∈ extraction.duplicates, ¬ openMark <:+: key) ∧ 1 < extraction.duplicates.length ∧
      (reindex document extraction.messages extraction.duplicates).Truthful document := by
  intro document extraction
  have hp : ∀ key ∈ extraction.duplicates, ¬ openMark <:+: key := by decide +kernel
  exact ⟨hp, by decide +kernel, ((reindex_truthful_iff document).2 hp).mpr (by decide +kernel)⟩

/-- The tag of an unfinished marker gets a new key that is on no span, but in the messages. -/
theorem reindex_updates_exceed_spans :
    let document := "[msg:a]x[/msg][msg:a]y[/msg][msg:a]z".toList
    let extraction := scan document
    let reindexed := reindex document extraction.messages extraction.duplicates
    reindexed.updates.get? "a".toList = some ["a_0".toList, "a_1".toList, "a_2".toList] ∧
      (spans reindexed.document).map Span.key = ["a_0".toList, "a_1".toList] ∧
      "a_2".toList ∈ reindexed.messages.keys ∧ extraction.occurrencesOf "a".toList = 2 ∧
      ¬ reindexed.Truthful document := by
  intro document extraction reindexed
  have hupdates : reindexed.updates.get? "a".toList =
      some ["a_0".toList, "a_1".toList, "a_2".toList] := by decide +kernel
  refine ⟨hupdates, by decide +kernel, by decide +kernel, by decide +kernel, fun h => ?_⟩
  have hnumber := h.numbers "a".toList (by decide +kernel)
  rw [hupdates] at hnumber
  exact absurd hnumber (by decide +kernel)

end MessageKeys.Markup
